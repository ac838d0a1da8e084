import StarCache.Refinement.Public
import StarCache.Space.BlockFiles
import Mathlib.Algebra.Order.BigOperators.Group.List

/-!
# Runs of the public interface

Between calls a cache owes what a fixed ghost says, whatever the calls have been; what
a single call may leave behind is absorbed by it or excluded. What is stored of an
object is then the value that was set last.
-/

namespace StarCache

open Prog MachineInt

/-! ## The first state -/

section Init

variable {pf : Platform} {options : CacheOptions}

theorem init_diskSpace : (StarCacheImpl.init pf options).diskSpace.Inv pf.flags [] ∧
    (StarCacheImpl.init pf options).diskSpace.cacheDirs.length = options.diskDirSpaces.length := by
  obtain ⟨hinv, _, hconf⟩ := DiskSpaceManager.foldl_addCacheDir
    options.diskDirSpaces [] DiskSpaceManager.inv_empty (fun i dir hdir _ => by cases hdir) rfl
    (by simpa using options.dirs_le)
  refine ⟨hinv, ?_⟩
  have hlength := congrArg List.length hconf
  rw [List.length_map, List.length_map] at hlength
  exact hlength

theorem init_find (id : CacheId) : (StarCacheImpl.init pf options).find id = none := rfl

theorem init_wf : WF pf (StarCacheImpl.init pf options) := by
  have hheld : ∀ r, (StarCacheImpl.init pf options).itemHeld r = false := fun _ => rfl
  obtain ⟨hdisk, hlength⟩ := @init_diskSpace pf options
  exact {
    item_lt := fun r hr => absurd hr List.not_mem_nil
    item_nodup := List.nodup_nil
    item_held := fun r hr => by rw [hheld] at hr; cases hr
    segment_lt := fun g hg => absurd hg List.not_mem_nil
    segment_nodup := List.nodup_nil
    segment_held := fun g hg => by cases hg
    block_held := fun id hid => by cases hid
    owner := fun r hr => absurd hr List.not_mem_nil
    memSpace := rfl
    diskSpace := hdisk
    layer := hlength
    memTracker := LruEvictionPolicy.inv_create _
    diskTracker := LruEvictionPolicy.inv_create _
    home := fun id r hfind => by rw [init_find] at hfind; cases hfind
    active := fun id r hfind => by rw [init_find] at hfind; cases hfind
    length := fun r hr => absurd hr List.not_mem_nil }

theorem init_quiet : Quiet (StarCacheImpl.init pf options) :=
  ⟨⟨fun _ h => absurd h List.not_mem_nil, fun _ h => absurd h List.not_mem_nil,
    fun _ h => absurd h List.not_mem_nil⟩, rfl, rfl, rfl⟩

/-- The files of a directory reach as far as its blocks. -/
theorem fileIndex_lt {flags : Flags} (hdvd : flags.blockSize ∣ flags.blockFileSize)
    (hpos : 0 < flags.blockFileSize) (hcount : flags.blockFileSize / flags.blockSize < 4294967296)
    {quotaBytes i : Nat} (hi : i < quotaBytes / flags.blockSize) :
    fileBlockCount flags ≠ 0 ∧
      CacheDir.fileIndex flags i < (CacheDir.initBlockFiles flags quotaBytes).length := by
  have hle := Nat.le_of_dvd hpos hdvd
  have hroom : i < CacheDir.room flags quotaBytes := by
    rw [CacheDir.room_eq hdvd hcount]
    exact hi
  obtain ⟨quota, hquota, _⟩ := (CacheDir.inFile_iff hle hcount).mpr hroom
  constructor
  · rw [CacheDir.fileBlockCount_eq hcount]
    exact Nat.pos_iff_ne_zero.mp (Nat.div_pos hle flags.blockSize_pos)
  · exact (List.getElem?_eq_some_iff.mp hquota).1

theorem mem_foldl_addCacheDir {flags : Flags} {dir : CacheDir} : ∀ (dirs : List DirSpace)
    {mgr : DiskSpaceManager}, dir ∈ (dirs.foldl (DiskSpaceManager.addCacheDir flags) mgr).cacheDirs →
      dir ∈ mgr.cacheDirs ∨ ∃ space ∈ dirs, ∃ index, dir = .create flags index space.quotaBytes
  | [], _, h => Or.inl h
  | space :: rest, mgr, h => by
      rcases mem_foldl_addCacheDir rest h with hmem | ⟨space', hspace', hdir⟩
      · rcases List.mem_append.mp hmem with hmem | hmem
        · exact Or.inl hmem
        · exact Or.inr ⟨space, List.mem_cons_self, _, List.mem_singleton.mp hmem⟩
      · exact Or.inr ⟨space', List.mem_cons_of_mem _ hspace', hdir⟩

theorem foldl_addCacheDir_quota {flags : Flags} : ∀ (dirs : List DirSpace) {mgr : DiskSpaceManager},
    mgr.quotaBytes + (dirs.map (·.quotaBytes)).sum < 18446744073709551616 →
      (dirs.foldl (DiskSpaceManager.addCacheDir flags) mgr).quotaBytes =
        mgr.quotaBytes + (dirs.map (·.quotaBytes)).sum
  | [], _, _ => rfl
  | space :: rest, mgr, h => by
      rw [List.map_cons, List.sum_cons] at h ⊢
      have hspace : (mgr.addCacheDir flags space).quotaBytes = mgr.quotaBytes + space.quotaBytes :=
        u64_of_lt (by omega)
      rw [List.foldl_cons, foldl_addCacheDir_quota rest (by rw [hspace]; omega), hspace]
      omega

/-- Every block that can be handed out lies in an open file. -/
theorem init_covered (hdvd : pf.flags.blockSize ∣ pf.flags.blockFileSize)
    (hpos : 0 < pf.flags.blockFileSize)
    (hcount : pf.flags.blockFileSize / pf.flags.blockSize < 4294967296)
    (hquota : (options.diskDirSpaces.map (·.quotaBytes)).sum < 18446744073709551616) :
    Covered pf.flags (StarCacheImpl.init pf options).diskSpace := by
  intro id dir hdir hlt
  rcases mem_foldl_addCacheDir _ (List.mem_of_getElem? hdir) with hmem | ⟨space, hspace, index, rfl⟩
  · cases hmem
  have hi : id.blockIndex < space.quotaBytes / pf.flags.blockSize := by
    refine Nat.lt_of_lt_of_le hlt ?_
    change u32 (space.quotaBytes / pf.flags.blockSize : Nat) ≤ _
    rw [u32_natCast]
    exact Nat.mod_le _ _
  obtain ⟨hne, hindex⟩ := fileIndex_lt hdvd hpos hcount hi
  refine ⟨?_, hne, _, hdir, _, List.getElem?_eq_getElem hindex⟩
  have hsum : (StarCacheImpl.init pf options).diskSpace.quotaBytes =
      0 + (options.diskDirSpaces.map (·.quotaBytes)).sum :=
    @foldl_addCacheDir_quota pf.flags options.diskDirSpaces {} (by simpa using hquota)
  have hle : space.quotaBytes ≤ (options.diskDirSpaces.map (·.quotaBytes)).sum :=
    List.single_le_sum (fun _ _ => Nat.zero_le _) _ (List.mem_map_of_mem hspace)
  have hblock : 0 < space.quotaBytes := by
    have := Nat.div_le_self space.quotaBytes pf.flags.blockSize
    omega
  omega

theorem init_inv {sc : Scenario pf} (g : Ghost) (hstart : sc.start = 0)
    (hcovered : sc.T → Covered pf.flags (StarCacheImpl.init pf options).diskSpace) :
    Inv sc ⟨StarCacheImpl.init pf options, g⟩ where
  wf := init_wf
  content _ r hr := absurd hr List.not_mem_nil
  memEvictable id r i b hfind := by cases hfind
  diskEvictable id r i b hfind := by cases hfind
  nonEmpty id r hfind := by cases hfind
  covered := hcovered
  clock := by
    rw [hstart]
    exact Nat.zero_le _

end Init

/-! ## One call -/

/-- What happened in earlier calls is forgotten. -/
def State.reset (s : State) : State := { s with trace := [], locks := [] }

namespace Call

open StarCacheImpl

variable (rt : Runtime)

/-- What a call may do. -/
def Does (s : State) : Call → Action → Prop
  | .set cacheKey _ _, a => a.InSet (rt.cachekey2id cacheKey) s.itemCount
  | .get _ _, a | .read _ _ _ _, a => a.InRead
  | .remove cacheKey, a => a.InRemove (rt.cachekey2id cacheKey)
  | .pin cacheKey, a => a.InPin fun r => lookupItem rt s cacheKey = some r ∧
      (s.items r).pinned = false
  | .unpin cacheKey, a => a.InPin fun r => lookupItem rt s cacheKey = some r

/-- What is owed after the call. -/
def owes (g : Ghost) : Call → Status → State → Ghost
  | .set cacheKey _ _, st, t => if st.ok = true then g.published (rt.cachekey2id cacheKey) t else g
  | _, _, _ => g

variable {rt} (sc : Scenario rt.toPlatform)

/-- What a call leaves and returns. -/
def Outcome (s : State) : Call → Reply → State → Prop
  | .set cacheKey _ _, reply, t =>
      (reply.status.ok = true → t.find (rt.cachekey2id cacheKey) = some s.itemCount ∧
        (t.items s.itemCount).cacheKey = cacheKey) ∧
      (reply.status.ok = false → ∀ r, t.find (rt.cachekey2id cacheKey) = some r →
        s.find (rt.cachekey2id cacheKey) = some r)
  | .get cacheKey _, reply, _ => sc.D → reply.status.ok = true →
      ∃ r, lookupItem rt s cacheKey = some r ∧ reply.buf = sc.val r
  | .read cacheKey offset size _, reply, _ => sc.D → reply.status.ok = true →
      ∃ r, lookupItem rt s cacheKey = some r ∧
        (0 ≤ offset ∧ offset + size < 18446744073709551616 →
          reply.buf = ((sc.val r).drop offset.toNat).take size)
  | .remove cacheKey, reply, t => reply.status.ok = true → t.find (rt.cachekey2id cacheKey) = none
  | .pin cacheKey, reply, t => reply.status.ok = true →
      ∃ r, lookupItem rt s cacheKey = some r ∧
        Pinned rt.toPlatform s (rt.cachekey2id cacheKey) r t
  | .unpin cacheKey, reply, t => reply.status.ok = true →
      ∃ r, lookupItem rt s cacheKey = some r ∧ (t.items r).pinned = false

/-- Objects and ranges whose bytes the index arithmetic reaches. -/
def Fits (flags : Flags) : Call → Prop
  | .set _ buf _ => Addressable flags buf.length ∧ blockCountOf flags buf.length < 4294967296
  | .read _ offset size _ => 0 ≤ offset ∧ offset + size < 18446744073709551616
  | _ => True

/-- Objects whose bytes the index arithmetic reaches. -/
def Stored (flags : Flags) : Call → Prop
  | .set _ buf _ => Addressable flags buf.length ∧ blockCountOf flags buf.length < 4294967296
  | _ => True

/-- Offsets that are not negative, and ranges whose end is a `size_t`. -/
def InRange : Call → Prop
  | .read _ offset size _ => 0 ≤ offset ∧ offset + size < 18446744073709551616
  | _ => True

theorem Fits.stored {flags : Flags} {c : Call} (h : c.Fits flags) : c.Stored flags := by
  cases c with
  | set => exact h
  | get | read | remove | pin | unpin => trivial

theorem Fits.inRange {flags : Flags} {c : Call} (h : c.Fits flags) : c.InRange := by
  cases c with
  | read => exact h
  | get | set | remove | pin | unpin => trivial

section Body

variable {sc} {s : State} {g : Ghost}

theorem body_spec (hinv : Inv sc ⟨s, g⟩) (hquiet : Quiet s) (c : Call)
    (hstored : sc.D → c.Stored rt.flags)
    (hrange : sc.D → c.InRange ∨ ∀ r i k, ¬ sc.whole r i k)
    (haddr : sc.D → ∀ r ∈ s.liveItems, Addressable rt.flags (sc.val r).length)
    (hval : ∀ cacheKey buf options, c = .set cacheKey buf options → sc.val s.itemCount = buf) :
    Spec False (c.body rt) (fun reply t =>
      Ran sc (c.Does rt s) s g t (c.owes rt g reply.status t) ∧ Returns s t ∧
      c.Outcome sc s reply t) s := by
  cases c with
  | set cacheKey buf options =>
      unfold body
      rw [spec_bind]
      refine (set_spec (T := False) hinv (fun _ hD => ⟨hval _ _ _ rfl, (hstored hD).2⟩) False.elim
        False.elim).mono ?_
      rintro st t ⟨hdone, hreturns⟩
      exact ⟨hdone.ran, hreturns, hdone.done, hdone.failed⟩
  | get cacheKey options =>
      unfold body StarCacheImpl.get
      rw [spec_bind, spec_bind, spec_read]
      have hoffset : sc.D → ∀ r ∈ s.liveItems, (0 : Int) = (0 : Nat) ∧
          0 + (s.items r).size < 18446744073709551616 := by
        intro hD r hr
        have := (haddr hD r hr).le
        rw [(hinv.content hD r hr).size]
        exact ⟨rfl, by omega⟩
      refine (lookupRead_spec hinv options 0 (fun r => (s.items r).size) 0
        (fun hD r hr => Or.inl (hoffset hD r hr)) haddr).mono ?_
      rintro res t ⟨ht, hreturns, hbytes⟩
      refine ⟨ht, hreturns, fun hD hok => ?_⟩
      obtain ⟨r, hlookup, hbuf⟩ := hbytes hD hok
      have hlive := hinv.wf.indexed_live (lookupItem_iff.mp hlookup).1
      refine ⟨r, hlookup, (hbuf (hoffset hD r hlive)).trans ?_⟩
      rw [(hinv.content hD r hlive).size, List.drop_zero, List.take_length]
  | read cacheKey offset size options =>
      unfold body StarCacheImpl.read
      rw [spec_bind, spec_bind, spec_read]
      have hoffset : 0 ≤ offset ∧ offset + size < 18446744073709551616 →
          offset = offset.toNat ∧ offset.toNat + size < 18446744073709551616 := by
        rintro ⟨hpos, hlt⟩
        exact ⟨(Int.toNat_of_nonneg hpos).symm, by omega⟩
      refine (lookupRead_spec hinv options offset (fun _ => size) offset.toNat
        (fun hD r _ => (hrange hD).imp hoffset fun h => h r) haddr).mono ?_
      rintro res t ⟨ht, hreturns, hbytes⟩
      refine ⟨ht, hreturns, fun hD hok => ?_⟩
      obtain ⟨r, hlookup, hbuf⟩ := hbytes hD hok
      exact ⟨r, hlookup, fun hin => hbuf (hoffset hin)⟩
  | remove cacheKey =>
      unfold body
      rw [spec_bind]
      refine ((remove_spec hinv).weaken False.elim).mono ?_
      rintro st t ⟨ht, hreturns, hgone⟩
      exact ⟨ht, hreturns, hgone⟩
  | pin cacheKey =>
      unfold body
      rw [spec_bind]
      refine ((pin_spec hinv).weaken False.elim).mono ?_
      rintro st t ⟨ht, hreturns, hpinned⟩
      exact ⟨ht, hreturns, hpinned⟩
  | unpin cacheKey =>
      unfold body
      rw [spec_bind]
      refine ((unpin_spec hinv hquiet).weaken False.elim).mono ?_
      rintro st t ⟨ht, hreturns, hpinned⟩
      refine ⟨ht, hreturns, fun hok => ?_⟩
      obtain ⟨r, hlookup, heq⟩ := hpinned hok
      refine ⟨r, hlookup, ?_⟩
      rw [heq]
      dsimp only
      rw [Function.update_self]

end Body

end Call

/-! ## Between calls -/

section Between

variable {pf : Platform} {sc sc' : Scenario pf} {s t : State} {g g' : Ghost}

/-- A call has left no more behind than `g` allows. -/
structure Absorbs (g g' : Ghost) (t : State) : Prop where
  mem : g'.memOwed ⊆ g.memOwed
  disk : g'.diskOwed ⊆ g.diskOwed
  hollow : g'.hollow ⊆ g.hollow
  lost : ∀ id lost, .diskMissing id lost ∈ t.trace → ∀ id' ∈ lost, id' ∈ g.diskOwed
  drained : ∀ key r item, .flushFailed key r item ∈ t.trace → Drained key item → r ∈ g.hollow

theorem Inv.reset (h : Inv sc ⟨t, g'⟩) (habsorbs : Absorbs g g' t) : Inv sc ⟨t.reset, g⟩ where
  wf := { h.wf with }
  content hD r hr := (h.content hD r hr).of_eq rfl rfl rfl rfl
  memEvictable := h.memEvictable.mono habsorbs.mem
  diskEvictable := by
    intro id r i b hfind hb hdisk hpinned
    rcases h.diskEvictable id r i b hfind hb hdisk hpinned with htracked | howed | ⟨id', lost, he, hid⟩
    · exact Or.inl htracked
    · exact Or.inr (Or.inl (habsorbs.disk howed))
    · exact Or.inr (Or.inl (habsorbs.lost id' lost he id hid))
  nonEmpty := by
    intro id r hfind
    rcases h.nonEmpty id r hfind with hfilled | hhollow | ⟨key, item, he, hdrained⟩
    · exact Or.inl hfilled
    · exact Or.inr (Or.inl (habsorbs.hollow hhollow))
    · exact Or.inr (Or.inl (habsorbs.drained key r item he hdrained))
  covered := h.covered
  clock := h.clock

/-- No segment over slice `k` of block `i` ends before the slice does. -/
def State.Whole (flags : Flags) (s : State) (r : ItemRef) (i k : Nat) : Prop :=
  ∀ b block x, s.HasBlock r i b → b.memBlockItem = some block → block.slices[k]? = some (some x) →
    (s.segments x).Fills flags ((s.items r).blockSize flags i) k

/-- The invariant only speaks of the objects that are there. -/
theorem Inv.congr (h : Inv sc ⟨s, g⟩) (hD : sc'.D → sc.D) (hT : sc'.T → sc.T)
    (hstart : sc'.start ≤ s.clock) (hval : ∀ r ∈ s.liveItems, sc'.val r = sc.val r)
    (hwhole : sc'.D → ∀ r ∈ s.liveItems, ∀ i k, sc'.whole r i k →
      sc.whole r i k ∨ s.Whole pf.flags r i k) :
    Inv sc' ⟨s, g⟩ where
  wf := h.wf
  content hD' r hr := by
    rw [hval r hr]
    have hitem := h.content (hD hD') r hr
    refine ⟨hitem.size, hitem.pos, hitem.le, fun i b block hb hmem => ?_, hitem.disk⟩
    obtain ⟨hslices, hdirty⟩ := hitem.mem i b block hb hmem
    refine ⟨hslices.mono fun k x hx hk => ?_, hdirty⟩
    rcases hk with hk | hk
    · refine (hwhole hD' r hr i k hk).imp Or.inl fun hsegs => ?_
      have hlt : i < (s.items r).blockCount pf.flags := by
        rw [← h.wf.length r hr]
        exact (List.getElem?_eq_some_iff.mp hb).1
      rw [← hitem.blockSize (sc.data (hD hD')).toGeometry hlt]
      exact hsegs b block x hb hmem hx
    · exact Or.inl (Or.inr hk)
  memEvictable := h.memEvictable
  diskEvictable := h.diskEvictable
  nonEmpty := h.nonEmpty
  covered hT' := h.covered (hT hT')
  clock := hstart

/-- The object that a call creates, if it does, is the one it has been given. -/
def Scenario.given (sc : Scenario pf) (c : Call) (s : State) : Scenario pf :=
  { sc with val := match c with
    | .set _ buf _ => Function.update sc.val s.itemCount buf
    | _ => sc.val }

theorem Scenario.given_val (c : Call) {r : ItemRef} (hr : r < s.itemCount) :
    (sc.given c s).val r = sc.val r := by
  cases c with
  | set _ buf _ => exact Function.update_of_ne (Nat.ne_of_lt hr) ..
  | get | read | remove | pin | unpin => rfl

end Between

/-- The value that a history of calls, latest first, leaves under a key. -/
def latestValue (cacheKey : CacheKey) : List Record → Option IOBuf
  | [] => none
  | ⟨.set cacheKey' buf _, reply⟩ :: rest =>
      if cacheKey' = cacheKey ∧ reply.status.ok = true then some buf else latestValue cacheKey rest
  | ⟨.remove cacheKey', reply⟩ :: rest =>
      if cacheKey' = cacheKey ∧ reply.status.ok = true then none else latestValue cacheKey rest
  | _ :: rest => latestValue cacheKey rest

section Sound

variable {rt : Runtime} {sc : Scenario rt.toPlatform} {g : Ghost} {history : List Record}
  {s t : State} {c : Call} {reply : Reply}

/-- What holds between calls. -/
structure Sound (sc : Scenario rt.toPlatform) (g : Ghost) (history : List Record) (s : State) :
    Prop where
  inv : Inv sc ⟨s.reset, g⟩
  quiet : Quiet s
  addressable : sc.D → ∀ r, Addressable rt.flags (sc.val r).length
  latest : ∀ id r, s.find id = some r → latestValue (s.items r).cacheKey history = some (sc.val r)

theorem Sound.given (h : Sound sc g history s) (c : Call) : Inv (sc.given c s) ⟨s.reset, g⟩ :=
  h.inv.congr id id h.inv.clock (fun _ hr => Scenario.given_val c (h.inv.wf.item_lt _ hr))
    fun _ _ _ _ _ hk => Or.inl hk

theorem Quiet.reset (h : Quiet s) : Quiet s.reset :=
  ⟨h.collected.of_eq (fun _ => rfl) rfl rfl rfl rfl rfl, h.locals, h.memHandles, h.diskHandles⟩

/-- One call of a run. -/
theorem Sound.ran (h : Sound sc g history s) (hstored : sc.D → c.Stored rt.flags)
    (hrange : sc.D → c.InRange ∨ ∀ r i k, ¬ sc.whole r i k)
    (hrun : c.run rt s = some (reply, t)) :
    Ran (sc.given c s) (c.Does rt s.reset) s.reset g t (c.owes rt g reply.status t) ∧
      Returns s.reset t ∧ c.Outcome (sc.given c s) s.reset reply t := by
  have hwf := h.inv.wf
  have hval : ∀ r ∈ s.reset.liveItems, (sc.given c s).val r = sc.val r := fun r hr =>
    Scenario.given_val c (hwf.item_lt r hr)
  refine (Call.body_spec (h.given c) h.quiet.reset c hstored hrange (fun hD r hr => ?_)
    ?_).outcome hrun
  · rw [hval r hr]
    exact h.addressable hD r
  · rintro cacheKey buf options rfl
    exact Function.update_self ..

/-- A key whose id is another one keeps its value. -/
theorem latestValue_cons {cacheKey : CacheKey}
    (hset : ∀ buf options, c = .set cacheKey buf options → reply.status.ok = false)
    (hremove : c = .remove cacheKey → reply.status.ok = false) :
    latestValue cacheKey (⟨c, reply⟩ :: history) = latestValue cacheKey history := by
  cases c with
  | set cacheKey' buf options =>
      rw [latestValue, if_neg]
      rintro ⟨rfl, hok⟩
      rw [hset buf options rfl] at hok
      cases hok
  | remove cacheKey' =>
      rw [latestValue, if_neg]
      rintro ⟨rfl, hok⟩
      rw [hremove rfl] at hok
      cases hok
  | get | read | pin | unpin => rfl

/-- What the index holds after a call was there before, except for the object of a set. -/
theorem Sound.find (h : Sound sc g history s) (hran : Ran (sc.given c s) (c.Does rt s.reset)
    s.reset g t (c.owes rt g reply.status t)) (hout : c.Outcome (sc.given c s) s.reset reply t)
    {id : CacheId} {r : ItemRef} (hfind : t.find id = some r) :
    (s.find id = some r ∧ (t.items r).cacheKey = (s.items r).cacheKey) ∨
      ∃ cacheKey buf options, c = .set cacheKey buf options ∧ reply.status.ok = true ∧
        r = s.itemCount ∧ (t.items r).cacheKey = cacheKey := by
  have hold : s.find id = some r →
      s.find id = some r ∧ (t.items r).cacheKey = (s.items r).cacheKey := fun hr =>
    ⟨hr, (hran.static.item r (h.inv.wf.indexed_lt hr)).1⟩
  have hback : ¬ c.Does rt s.reset (.publish id) → s.find id = some r := fun hpublish =>
    Runs.find hran.runs hpublish hfind
  cases c with
  | set cacheKey buf options =>
      by_cases hid : id = rt.cachekey2id cacheKey
      · subst hid
        cases hok : reply.status.ok with
        | true =>
            obtain ⟨hnew, hkey⟩ := hout.1 hok
            obtain rfl : r = s.itemCount := Option.some.inj (hfind.symm.trans hnew)
            exact Or.inr ⟨cacheKey, buf, options, rfl, rfl, rfl, hkey⟩
        | false => exact Or.inl (hold (hout.2 hok r hfind))
      · exact Or.inl (hold (hback hid))
  | get | read | remove | pin | unpin => exact Or.inl (hold (hback fun h => h))

theorem Sound.call (h : Sound sc g history s) (hstored : sc.D → c.Stored rt.flags)
    (hrange : sc.D → c.InRange ∨ ∀ r i k, ¬ sc.whole r i k)
    (hrun : c.run rt s = some (reply, t))
    (habsorbs : Absorbs g (c.owes rt g reply.status t) t) :
    Sound (sc.given c s) g (⟨c, reply⟩ :: history) t := by
  obtain ⟨hran, hreturns, hout⟩ := h.ran hstored hrange hrun
  have hwf := h.inv.wf
  refine ⟨(hran.inv (h.given c)).reset habsorbs, ?_, fun hD r => ?_, fun id r hfind => ?_⟩
  · exact hreturns.quiet h.quiet.reset
  · cases c with
    | set cacheKey buf options =>
        unfold Scenario.given
        dsimp only
        rw [Function.update_apply]
        split
        next => exact (hstored hD).1
        next => exact h.addressable hD r
    | get | read | remove | pin | unpin => exact h.addressable hD r
  · rcases h.find hran hout hfind with ⟨hold, hkey⟩ | ⟨cacheKey, buf, options, rfl, hok, rfl, hkey⟩
    · have hval : (sc.given c s).val r = sc.val r :=
        Scenario.given_val c (hwf.indexed_lt hold)
      rw [hkey, hval, ← h.latest id r hold]
      have hhome : rt.cachekey2id (s.items r).cacheKey = id := hwf.home id r hold
      refine latestValue_cons ?_ ?_
      · rintro buf options rfl
        cases hok : reply.status.ok with
        | false => rfl
        | true =>
            have hnew := (hout.1 hok).1
            rw [hhome, hfind] at hnew
            exact absurd (hwf.indexed_lt hold) (Option.some.inj hnew ▸ Nat.lt_irrefl _)
      · rintro rfl
        cases hok : reply.status.ok with
        | false => rfl
        | true =>
            have hnone := hout hok
            rw [hhome, hfind] at hnone
            cases hnone
    · rw [hkey, latestValue, if_pos ⟨rfl, hok⟩]
      unfold Scenario.given
      dsimp only
      rw [Function.update_self]

end Sound

/-! ## Runs -/

/-- The runs all of whose calls meet a condition on the state before the call, the call with
its reply and the state after it. -/
inductive RunOf (rt : Runtime) (options : CacheOptions) (C : State → Record → State → Prop) :
    List Record → State → Prop
  | init : RunOf rt options C [] (StarCacheImpl.init rt.toPlatform options)
  | call {history : List Record} {s t : State} (c : Call) (reply : Reply) :
      RunOf rt options C history s → c.run rt s = some (reply, t) → C s ⟨c, reply⟩ t →
        RunOf rt options C (⟨c, reply⟩ :: history) t

section RunOf

variable {rt : Runtime} {options : CacheOptions} {C : State → Record → State → Prop}
  {history : List Record} {s : State}

/-- Every run meets a condition that its calls do. -/
theorem Run.runOf (h : Run rt options history s) (p : Call → Prop)
    (hp : ∀ r ∈ history, p r.call) : RunOf rt options (fun _ r _ => p r.call) history s := by
  induction h with
  | init => exact .init
  | call c reply _ hrun ih =>
      refine .call c reply (ih fun r hr => hp r (List.mem_cons_of_mem _ hr)) hrun ?_
      exact hp _ List.mem_cons_self

/-- In every state of a run whose calls are absorbed, the invariant holds. -/
theorem RunOf.sound {g : Ghost} (h : RunOf rt options C history s)
    (sc : Scenario rt.toPlatform) (hstart : sc.start = 0)
    (hcovered : sc.T → Covered rt.flags (StarCacheImpl.init rt.toPlatform options).diskSpace)
    (hstored : ∀ s r t, C s r t → sc.D → r.call.Stored rt.flags)
    (hrange : ∀ s r t, C s r t → sc.D → r.call.InRange ∨ ∀ r i k, ¬ sc.whole r i k)
    (habsorbs : ∀ s r t, C s r t → Absorbs g (r.call.owes rt g r.reply.status t) t) :
    ∃ val, Sound { sc with val } g history s := by
  induction h with
  | init =>
      refine ⟨fun _ => [], init_inv g hstart hcovered, init_quiet, fun hD r => ?_,
        fun id r hfind => by cases hfind⟩
      exact .of_le (sc.data hD).toGeometry (Nat.zero_le _)
  | call c reply _ hrun hcond ih =>
      obtain ⟨val, hsound⟩ := ih
      exact ⟨_, hsound.call (hstored _ _ _ hcond) (hrange _ _ _ hcond) hrun
        (habsorbs _ _ _ hcond)⟩

end RunOf

/-! ## Scenarios -/

/-- Nothing that is owed matters. -/
def Ghost.all : Ghost := ⟨Set.univ, Set.univ, Set.univ⟩

theorem Absorbs.all (g : Ghost) (t : State) : Absorbs .all g t :=
  ⟨Set.subset_univ _, Set.subset_univ _, Set.subset_univ _, fun _ _ _ _ _ => Set.mem_univ _,
    fun _ _ _ _ _ => Set.mem_univ _⟩

/-- Nothing is assumed of the bytes. -/
def Scenario.bare (pf : Platform) : Scenario pf where
  D := False
  T := False
  start := 0
  data := False.elim
  total := id
  val _ := []
  whole _ _ _ := False

section Bare

variable {rt : Runtime} {options : CacheOptions} {history : List Record} {s t : State} {c : Call}
  {reply : Reply}

theorem RunOf.sound_bare {C : State → Record → State → Prop} {g : Ghost}
    (h : RunOf rt options C history s)
    (habsorbs : ∀ s r t, C s r t → Absorbs g (r.call.owes rt g r.reply.status t) t) :
    ∃ val, Sound { Scenario.bare rt.toPlatform with val } g history s :=
  h.sound (.bare rt.toPlatform) rfl False.elim (fun _ _ _ _ h => h.elim)
    (fun _ _ _ _ h => h.elim) habsorbs

theorem Run.sound (hrun : Run rt options history s) :
    ∃ val, Sound { Scenario.bare rt.toPlatform with val } .all history s :=
  (hrun.runOf (fun _ => True) fun _ _ => trivial).sound_bare fun _ _ _ _ => .all _ _

/-- Between the calls of any run a state is well-formed, and nothing is held. -/
theorem Run.quiet (hrun : Run rt options history s) : WF rt.toPlatform s ∧ Quiet s := by
  obtain ⟨val, hsound⟩ := hrun.sound
  exact ⟨{ hsound.inv.wf with }, hsound.quiet⟩

/-- The next call of any run. -/
theorem Run.ran (hrun : Run rt options history s) (hcall : c.run rt s = some (reply, t)) :
    ∃ (sc : Scenario rt.toPlatform) (g : Ghost), Inv sc ⟨s.reset, .all⟩ ∧
      Ran sc (c.Does rt s.reset) s.reset .all t g := by
  obtain ⟨val, hsound⟩ := hrun.sound
  obtain ⟨hran, _⟩ := hsound.ran (fun h => h.elim) (fun h => h.elim) hcall
  exact ⟨_, _, hsound.given c, hran⟩

theorem Run.options_eq (hrun : Run rt options history s) : s.options = options := by
  induction hrun with
  | init => rfl
  | call c reply hrun hcall ih =>
      obtain ⟨sc, g, _, hran⟩ := hrun.ran hcall
      exact hran.static.options.trans ih

end Bare

section Bytes

variable {rt : Runtime} {options : CacheOptions} {history : List Record} {s : State}

/-- The bytes survive. -/
def Scenario.bytes {pf : Platform} (hdata : DataHyp pf) : Scenario pf where
  D := True
  T := False
  start := 0
  data _ := hdata
  total := False.elim
  val _ := []
  whole _ _ _ := False

/-- The runs in which all objects are stored so that their bytes can be reached. -/
theorem RunOf.sound_bytes {C : State → Record → State → Prop} (hdata : DataHyp rt.toPlatform)
    (h : RunOf rt options C history s) (hstored : ∀ s r t, C s r t → r.call.Stored rt.flags) :
    ∃ val, Sound { Scenario.bytes hdata with val } .all history s :=
  h.sound (.bytes hdata) rfl False.elim (fun _ _ _ h _ => hstored _ _ _ h)
    (fun _ _ _ _ _ => Or.inr fun _ _ _ h => h) fun _ _ _ _ => .all _ _

end Bytes

/-- Nothing is undefined either, and reads are considered from clock `start` on. -/
def Scenario.served {pf : Platform} (hdata : DataHyp pf) (start : Nat) : Scenario pf where
  D := True
  T := True
  start
  data _ := hdata
  total := id
  val _ := []
  whole _ _ _ := False

/-- Moreover no segment ends inside a slice, as long as no read wraps around. -/
def Scenario.unbroken {pf : Platform} (sc : Scenario pf) : Scenario pf :=
  { sc with whole := fun _ _ _ => True }

/-- The runs whose objects and reads stay where the index arithmetic reaches. -/
theorem RunOf.sound_unbroken {rt : Runtime} {options : CacheOptions} {history : List Record}
    {s : State} (hdata : DataHyp rt.toPlatform)
    (hcovered : Covered rt.flags (StarCacheImpl.init rt.toPlatform options).diskSpace)
    (h : RunOf rt options (fun _ record _ => record.call.Fits rt.flags) history s) :
    ∃ val, Sound { (Scenario.served hdata 0).unbroken with val } .all history s :=
  h.sound (Scenario.served hdata 0).unbroken rfl (fun _ => hcovered)
    (fun _ _ _ h _ => h.stored) (fun _ _ _ h _ => Or.inl h.inRange) fun _ _ _ _ => .all _ _

namespace Call

/-- Objects of at most `n` bytes. -/
def Bounded (n : Nat) : Call → Prop
  | .set _ buf _ => buf.length ≤ n
  | _ => True

instance (n : Nat) : ∀ c : Call, Decidable (c.Bounded n)
  | .set _ buf _ => inferInstanceAs (Decidable (buf.length ≤ n))
  | .get _ _ | .read _ _ _ _ | .remove _ | .pin _ | .unpin _ => inferInstanceAs (Decidable True)

instance : ∀ c : Call, Decidable c.InRange
  | .read _ offset size _ =>
      inferInstanceAs (Decidable (0 ≤ offset ∧ offset + size < 18446744073709551616))
  | .get _ _ | .set _ _ _ | .remove _ | .pin _ | .unpin _ => inferInstanceAs (Decidable True)

theorem stored {flags : Flags} (hgeo : Geometry flags) : ∀ {c : Call}, c.Bounded 2147483648 →
    c.Stored flags
  | .set _ buf _, hbound => by
      have hbound : buf.length ≤ 2147483648 := hbound
      refine ⟨.of_le hgeo hbound, ?_⟩
      have := Nat.div_le_self (buf.length - 1) flags.blockSize
      unfold blockCountOf
      split <;> omega
  | .read _ _ _ _, _ | .get _ _, _ | .remove _, _ | .pin _, _ | .unpin _, _ => trivial

theorem fits {flags : Flags} (hgeo : Geometry flags) : ∀ {c : Call}, c.Bounded 2147483648 →
    c.InRange → c.Fits flags
  | .set _ _ _, hbound, _ => stored (c := .set _ _ _) hgeo hbound
  | .read _ _ _ _, _, hrange => hrange
  | .get _ _, _, _ | .remove _, _, _ | .pin _, _, _ | .unpin _, _, _ => trivial

end Call

end StarCache
