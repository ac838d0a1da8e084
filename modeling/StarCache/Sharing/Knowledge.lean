import StarCache.Sharing.Contents

/-!
# What a thread has and knows

The texts of the calls are followed with the pointers and mutexes that the thread has, which no
other thread touches, and with what it knows of objects that do not change.
-/

namespace StarCache

namespace Sharing

open Discipline Function

variable {flags : Flags} {V : Objects} {t : Nat} {α β : Type}

/-- What the thread has, and what it knows. -/
def At (t : Nat) (h : Held) (F : Knowledge) : Knowledge := fun tr s => s.held t = h ∧ F tr s

/-- The thread goes from `h` and `F` to `h'` and `G`. -/
def Runs (flags : Flags) (V : Objects) (t : Nat) (h : Held) (F : Knowledge) (m : Op α) (h' : α → Held)
    (G : α → Knowledge) : Prop :=
  (discipline flags V).Outline t (fun a => At t (h' a) (G a)) m (At t h F)

abbrev Lasting (flags : Flags) (V : Objects) (F : Knowledge) : Prop := (discipline flags V).Persistent F

/-- The thread ends with what it had and knew. -/
abbrev Leaves (flags : Flags) (V : Objects) (t : Nat) (h : Held) (F : Knowledge) (m : Op α) : Prop :=
  Runs flags V t h F m (fun _ => h) fun _ => F

/-- One thing follows from the other. -/
def Gets (flags : Flags) (V : Objects) (F G : Knowledge) : Prop := ∀ tr s, Inv flags V s → F tr s → G tr s

theorem Gets.refl (F : Knowledge) : Gets flags V F F := fun _ _ _ h => h

theorem Gets.left {F G H : Knowledge} (h : Gets flags V F H) :
    Gets flags V (fun tr s => F tr s ∧ G tr s) H := fun tr s hs hFG => h tr s hs hFG.1

theorem Gets.right {F G H : Knowledge} (h : Gets flags V G H) :
    Gets flags V (fun tr s => F tr s ∧ G tr s) H := fun tr s hs hFG => h tr s hs hFG.2

section Runs

variable {h h₁ : Held} {F F' : Knowledge} {m : Op α} {h' : α → Held} {G G' : α → Knowledge}

theorem Runs.bind {f : α → Op β} {h'' : β → Held} {G'' : β → Knowledge} (hm : Runs flags V t h F m h' G)
    (hf : ∀ a, Runs flags V t (h' a) (G a) (f a) h'' G'') : Runs flags V t h F (m >>= f) h'' G'' :=
  Outline.bind hm hf

theorem Runs.pre (hm : Runs flags V t h F m h' G) (hF : Gets flags V F' F) :
    Runs flags V t h F' m h' G :=
  Outline.pre hm fun tr s hs hP => ⟨hP.1, hF tr s hs hP.2⟩

theorem Runs.post (hm : Runs flags V t h F m h' G) (hG : ∀ a, Gets flags V (G a) (G' a)) :
    Runs flags V t h F m h' G' :=
  Outline.post hm fun a tr s hs hP => ⟨hP.1, hG a tr s hs hP.2⟩

theorem Runs.pure_bind {a : β} {f : β → Op α} (hf : Runs flags V t h F (f a) h' G) :
    Runs flags V t h F (pure a >>= f) h' G := hf

/-- What was learnt on the way may be forgotten. -/
theorem Runs.forget {K : α → Knowledge}
    (hm : Runs flags V t h F' m h' fun a tr s => G a tr s ∧ K a tr s) :
    Runs flags V t h F' m h' G :=
  hm.post fun a => (Gets.refl (G a)).left

theorem runs_pure {a : α} (hh : h = h' a) (hG : Gets flags V F (G a)) :
    Runs flags V t h F (pure a) h' G :=
  outline_pure fun tr s hs hP => ⟨hh ▸ hP.1, hG tr s hs hP.2⟩

theorem Runs.given {p : Prop} (hm : p → Runs flags V t h F m h' G)
    (hp : ∀ tr s, Inv flags V s → s.held t = h → F tr s → p) : Runs flags V t h F m h' G :=
  Outline.given hm fun tr s hs hP => hp tr s hs hP.1 hP.2

theorem runs_exists {ι : Sort*} {F : ι → Knowledge} (hm : ∀ i, Runs flags V t h (F i) m h' G) :
    Runs flags V t h (fun tr s => ∃ i, F i tr s) m h' G :=
  Outline.pre (outline_exists hm) fun _ _ _ ⟨hh, i, hF⟩ => ⟨i, hh, hF⟩

theorem runs_when {c : Bool} {m : Op Unit} {G : Unit → Knowledge}
    (hm : c = true → Runs flags V t h F m (fun _ => h) G) (hG : c = false → Gets flags V F (G ())) :
    Runs flags V t h F (Thread.when c m) (fun _ => h) G :=
  outline_when hm fun hc tr s hs hP => ⟨hP.1, hG hc tr s hs hP.2⟩

theorem runs_forEach {γ : Type} {xs : List γ} {body : γ → Op Unit}
    (hbody : ∀ x ∈ xs, Runs flags V t h F (body x) (fun _ => h) fun _ => F) :
    Runs flags V t h F (Thread.forEach xs body) (fun _ => h) fun _ => F :=
  outline_forEach hbody

theorem runs_forUntil {γ : Type} {stop : α → Bool} {done : α} {xs : List γ} {body : γ → Op α}
    (hdone : Gets flags V F (G done)) (hbody : ∀ x ∈ xs, Runs flags V t h F (body x) (fun _ => h)
      fun a tr s => (stop a = true → G a tr s) ∧ (stop a = false → F tr s)) :
    Runs flags V t h F (Thread.forUntil stop done xs body) (fun _ => h) G := by
  refine outline_forUntil (fun tr s hs hP => ⟨hP.1, hdone tr s hs hP.2⟩) fun x hx => ?_
  exact Outline.post (hbody x hx) fun a tr s _ hP =>
    ⟨fun hstop => ⟨hP.1, hP.2.1 hstop⟩, fun hgo => ⟨hP.1, hP.2.2 hgo⟩⟩

/-- What the turns of a loop establish holds of all of them at its end. -/
theorem runs_gather {γ : Type} {body : γ → Op Unit} {N : γ → Knowledge}
    (hN : ∀ x, Lasting flags V (N x)) : ∀ (xs : List γ) {F : Knowledge}, Lasting flags V F →
      (∀ x ∈ xs, ∀ {F'}, Lasting flags V F' → Gets flags V F' F →
        Runs flags V t h F' (body x) (fun _ => h) fun _ tr s => F' tr s ∧ N x tr s) →
      Runs flags V t h F (Thread.forEach xs body) (fun _ => h)
        fun _ tr s => F tr s ∧ ∀ x ∈ xs, N x tr s
  | [], F, _, _ => runs_pure rfl fun _ _ _ hP => ⟨hP, fun _ h => nomatch h⟩
  | x :: rest, F, hF, hbody => by
      refine Runs.bind (hbody x List.mem_cons_self hF (.refl F)) fun _ => ?_
      refine (runs_gather hN rest (hF.and (hN x)) fun y hy F' hF' hgets =>
        hbody y (List.mem_cons_of_mem _ hy) hF' fun tr s hs hP => (hgets tr s hs hP).1).post ?_
      rintro _ tr s _ ⟨⟨hP, hx⟩, hrest⟩
      exact ⟨hP, List.forall_mem_cons.mpr ⟨hx, hrest⟩⟩

/-- The same of a loop that goes on as long as its turns establish something. -/
theorem runs_gatherUntil {γ : Type} {stop : α → Bool} {done : α} {body : γ → Op α}
    {N : γ → Knowledge} (hN : ∀ x, Lasting flags V (N x)) :
    ∀ (xs : List γ) {F : Knowledge}, Lasting flags V F →
      (∀ x ∈ xs, ∀ {F'}, Lasting flags V F' → Gets flags V F' F →
        Runs flags V t h F' (body x) (fun _ => h)
          fun a tr s => F' tr s ∧ (stop a = false → N x tr s)) →
      Runs flags V t h F (Thread.forUntil stop done xs body) (fun _ => h)
        fun a tr s => F tr s ∧ (stop a = false → ∀ x ∈ xs, N x tr s)
  | [], F, _, _ => runs_pure rfl fun _ _ _ hP => ⟨hP, fun _ _ h => nomatch h⟩
  | x :: rest, F, hF, hbody => by
      refine Runs.bind (hbody x List.mem_cons_self hF (.refl F)) fun a => ?_
      split
      next hstop =>
        exact runs_pure rfl fun _ _ _ hP => ⟨hP.1, fun hgo => absurd (hgo.symm.trans hstop) (by decide)⟩
      next hgo =>
        rw [Bool.not_eq_true] at hgo
        refine ((runs_gatherUntil hN rest (hF.and (hN x)) fun y hy F' hF' hgets =>
          hbody y (List.mem_cons_of_mem _ hy) hF' fun tr s hs hP => (hgets tr s hs hP).1).pre
          fun tr s _ hP => ⟨hP.1, hP.2 hgo⟩).post ?_
        rintro b tr s _ ⟨⟨hP, hx⟩, hrest⟩
        exact ⟨hP, fun hb => List.forall_mem_cons.mpr ⟨hx, hrest hb⟩⟩

theorem lasting_stable (hF : Lasting flags V F) : (discipline flags V).Stable t (At t h F) :=
  fun t' ht tr s s' hs hs' hguar hP =>
    ⟨(hguar.held t ht.symm).trans hP.1, hF.stable t' ht tr s s' hs hs' hguar hP.2⟩

theorem leaves_when {c : Bool} {m : Op Unit} (hm : c = true → Leaves flags V t h F m) :
    Leaves flags V t h F (Thread.when c m) := runs_when hm fun _ => .refl F

theorem leaves_forUntil {γ : Type} {stop : α → Bool} {done : α} {xs : List γ} {body : γ → Op α}
    (hbody : ∀ x ∈ xs, Leaves flags V t h F (body x)) :
    Leaves flags V t h F (Thread.forUntil stop done xs body) :=
  runs_forUntil (.refl F) fun x hx => (hbody x hx).post fun _ _ _ _ hP => ⟨fun _ => hP, fun _ => hP⟩

theorem runs_retry {attempt : Op (Option α)} {remedy : Op Unit} {h' : Option α → Held}
    {G : Option α → Knowledge} (hattempt : Runs flags V t h F attempt h' G) (hh : h' none = h)
    (hnone : Gets flags V F (G none)) (hback : Gets flags V (G none) F)
    (hremedy : Leaves flags V t h F remedy) (n : Nat) :
    Runs flags V t h F (Thread.retry attempt remedy n) h' G := by
  refine outline_retry (fun tr s hs hP => ⟨hh ▸ hP.1, hnone tr s hs hP.2⟩)
    (Outline.post hattempt fun a tr s hs hP => ⟨fun _ => hP, ?_⟩) hremedy n
  rintro rfl
  exact ⟨hh ▸ hP.1, hback tr s hs hP.2⟩

theorem runs_perform {e : Atom} {P : Knowledge} {h' : e.Answer → Held} {N : e.Answer → Knowledge}
    (hF : Lasting flags V F) (hN : ∀ a, Lasting flags V (N a)) (hPF : Gets flags V P F)
    (hact : ∀ tr s, Inv flags V s → s.held t = h → P tr s →
      ((discipline flags V).waits t e s ∨ ∀ i, (effect flags t e i s).isSome = true) ∧
      ∀ i a s', effect flags t e i s = some (a, s') → Inv flags V s' ∧ Guar flags t s s' ∧
        s'.held t = h' a ∧ N a (⟨e, a⟩ :: tr) s') :
    Runs flags V t h P (perform e) h' fun a tr s => F tr s ∧ N a tr s := by
  refine outline_perform (fun a => lasting_stable (hF.and (hN a))) fun tr s hs hP => ?_
  obtain ⟨hready, hact⟩ := hact tr s hs hP.1 hP.2
  refine ⟨hready, fun i a s' heffect => ?_⟩
  obtain ⟨hs', hguar, hh, hnew⟩ := hact i a s' heffect
  refine ⟨hs', hguar, hh, ?_, hnew⟩
  exact hF t tr _ s s' hs hs' hguar (List.suffix_cons ..) (hPF tr s hs hP.2)

/-- An action that only looks. -/
theorem runs_look {e : Atom} {N : e.Answer → Knowledge} (hF : Lasting flags V F)
    (hN : ∀ a, Lasting flags V (N a))
    (hact : ∀ tr s, Inv flags V s → s.held t = h → F tr s → ∀ i, ∃ a,
      effect flags t e i s = some (a, s) ∧ N a (⟨e, a⟩ :: tr) s) :
    Runs flags V t h F (perform e) (fun _ => h) fun a tr s => F tr s ∧ N a tr s := by
  refine runs_perform hF hN (.refl F) fun tr s hs hh hP => ⟨Or.inr fun i => ?_, fun i a s' heffect => ?_⟩
  · obtain ⟨a, heq, _⟩ := hact tr s hs hh hP i
    rw [heq]
    rfl
  · obtain ⟨a', heq, hnew⟩ := hact tr s hs hh hP i
    rw [heq] at heffect
    cases heffect
    exact ⟨hs, .refl s, hh, hnew⟩

/-- An action that changes the state in one way. -/
theorem runs_change {e : Atom} {h' : Held} {N : e.Answer → Knowledge} (hF : Lasting flags V F)
    (hN : ∀ a, Lasting flags V (N a))
    (hact : ∀ tr s, Inv flags V s → s.held t = h → F tr s → ∃ a s',
      (∀ i, effect flags t e i s = some (a, s')) ∧ Inv flags V s' ∧ Guar flags t s s' ∧
        s'.held t = h' ∧ N a (⟨e, a⟩ :: tr) s') :
    Runs flags V t h F (perform e) (fun _ => h') fun a tr s => F tr s ∧ N a tr s := by
  refine runs_perform hF hN (.refl F) fun tr s hs hh hP => ?_
  obtain ⟨a, s', heq, hpost⟩ := hact tr s hs hh hP
  refine ⟨Or.inr fun i => by rw [heq]; rfl, fun i a' s'' heffect => ?_⟩
  rw [heq] at heffect
  cases heffect
  exact hpost

/-- An action that changes the state in one way, and tells nothing. -/
theorem runs_step {e : Atom} {h' : Held} (hF : Lasting flags V F)
    (hact : ∀ tr s, Inv flags V s → s.held t = h → F tr s → ∃ a s',
      (∀ i, effect flags t e i s = some (a, s')) ∧ Inv flags V s' ∧ Guar flags t s s' ∧
        s'.held t = h') :
    Runs flags V t h F (perform e) (fun _ => h') fun _ => F := by
  have hrun : Runs flags V t h F (perform e) (fun _ => h') fun _ tr s => F tr s ∧ True :=
    runs_change hF (fun _ => persistent_const True) fun tr s hs hh hP => by
      obtain ⟨a, s', heq, hs', hguar, hh'⟩ := hact tr s hs hh hP
      exact ⟨a, s', heq, hs', hguar, hh', trivial⟩
  exact hrun.post fun _ => (Gets.refl F).left

end Runs

/-! ## Knowledge -/

/-- The item has a block of this index. -/
def InItem (flags : Flags) (r : ItemRef) (i : Nat) : Knowledge := fun _ s =>
  r < s.itemCount ∧ i < s.blockCount flags r

def IsItem (r : ItemRef) (cacheKey : CacheKey) (value : IOBuf) : Knowledge := fun _ s =>
  r < s.itemCount ∧ (s.items r).cacheKey = cacheKey ∧ (s.items r).value = value

/-- The index has had the item. -/
def Linked (r : ItemRef) : Knowledge := fun _ s => r < s.itemCount ∧ (s.items r).linked = true

/-- The item is not released before the index has it. -/
def Unreleased (r : ItemRef) : Knowledge := fun _ s =>
  r < s.itemCount ∧ (s.Fresh r → (s.items r).released = false)

/-- Nothing of the block is missing before the index has the item. -/
def WholeOf (flags : Flags) (r : ItemRef) (i : Nat) : Knowledge := fun _ s =>
  r < s.itemCount ∧ (s.Fresh r → s.Whole flags r i)

def SliceOf (m : MemRef) (k : Nat) : Knowledge := fun _ s => m < s.memCount ∧ s.HasSlice m k

/-- Every slice that the segment covers is in memory. -/
def Placed (flags : Flags) (m : MemRef) (g : SegmentRef) : Knowledge := fun tr s =>
  g < s.segmentCount ∧ ∀ k, (s.segments g).Covers flags k → SliceOf m k tr s

/-- The thread may take from the block what it has. -/
def Stale (r : ItemRef) : Knowledge := fun _ s => ¬ s.Fresh r

/-- The key and the size of the item. -/
def Described (r : ItemRef) (a : CacheKey × Nat) : Knowledge := fun _ s =>
  r < s.itemCount ∧ (s.items r).cacheKey = a.1 ∧ (s.items r).value.length = a.2

def MemOf (m : MemRef) (r : ItemRef) (i : Nat) : Knowledge := fun _ s =>
  m < s.memCount ∧ (s.memBlocks m).owner = (r, i)

def DiskOf (d : DiskRef) (r : ItemRef) (i : Nat) : Knowledge := fun _ s =>
  d < s.diskCount ∧ (s.diskBlocks d).owner = (r, i)

def PublishedOf (d : DiskRef) (r : ItemRef) (i : Nat) : Knowledge := fun _ s =>
  d < s.diskCount ∧ (s.diskBlocks d).owner = (r, i) ∧ (s.diskBlocks d).published = true

def IsSegment (g : SegmentRef) (seg : BlockSegment) : Knowledge := fun _ s =>
  g < s.segmentCount ∧ s.segments g = seg

/-- The segment holds a part of the block. -/
def DataOf (flags : Flags) (seg : BlockSegment) (r : ItemRef) (i : Nat) : Knowledge := fun _ s =>
  r < s.itemCount ∧ SegmentOk flags (s.part flags r i) seg

def SegmentOf (flags : Flags) (g : SegmentRef) (r : ItemRef) (i : Nat) : Knowledge := fun _ s =>
  r < s.itemCount ∧ g < s.segmentCount ∧ SegmentOk flags (s.part flags r i) (s.segments g)

section Lasting

variable {r : ItemRef} {i : Nat}

/-- The key and the value of an item stay. -/
theorem lasting_item (φ : CacheKey → IOBuf → Prop) (r : ItemRef) : Lasting flags V fun _ s =>
    r < s.itemCount ∧ φ (s.items r).cacheKey (s.items r).value := by
  rintro t tr tr' s s' hs hs' hguar _ ⟨hlt, hφ⟩
  refine ⟨Nat.lt_of_lt_of_le hlt hguar.itemCount, ?_⟩
  obtain ⟨hkey, hvalue⟩ := hguar.item r hlt
  rwa [hkey, hvalue]

theorem lasting_isItem {cacheKey : CacheKey} {value : IOBuf} :
    Lasting flags V (IsItem r cacheKey value) :=
  lasting_item (fun key v => key = cacheKey ∧ v = value) r

theorem lasting_described {a : CacheKey × Nat} : Lasting flags V (Described r a) :=
  lasting_item (fun key value => key = a.1 ∧ value.length = a.2) r

theorem Described.inItem {a : CacheKey × Nat} (h : i < blockCountOf flags a.2) :
    Gets flags V (Described r a) (InItem flags r i) := by
  rintro tr s _ ⟨hlt, _, hsize⟩
  refine ⟨hlt, ?_⟩
  show i < blockCountOf flags (s.items r).value.length
  rwa [hsize]

theorem Described.le {a : CacheKey × Nat} :
    Gets flags V (Described r a) fun _ _ => 0 < a.2 ∧ a.2 ≤ 2147483648 := by
  rintro tr s hs ⟨hlt, _, hsize⟩
  have hvalue := hs.contents.value r hlt
  exact hsize ▸ ⟨V.pos hvalue, V.le hvalue⟩

theorem lasting_linked : Lasting flags V (Linked r) := by
  rintro t tr tr' s s' hs hs' hguar _ ⟨hlt, hlinked⟩
  exact ⟨Nat.lt_of_lt_of_le hlt hguar.itemCount, hguar.spares.linked r hlt hlinked⟩

theorem Linked.stale : Gets flags V (Linked r) (Stale r) := fun _ _ _ h hfresh =>
  absurd (h.2.symm.trans hfresh.unlinked) (by decide)

theorem Gets.stale {F : Knowledge} (h : Gets flags V F (Linked r)) : Gets flags V F (Stale r) :=
  fun tr s hs hF => Linked.stale tr s hs (h tr s hs hF)

theorem Spares.fresh {s s' : Shared} (h : Spares flags s s') (hlt : r < s.itemCount)
    (hfresh : s'.Fresh r) : s.Fresh r := by
  refine ⟨?_, h.alive r hlt hfresh⟩
  cases hlinked : (s.items r).linked with
  | false => rfl
  | true => exact (h.linked r hlt hlinked).symm.trans hfresh.unlinked

theorem lasting_unreleased : Lasting flags V (Unreleased r) := by
  rintro t tr tr' s s' hs hs' hguar _ ⟨hlt, hmark⟩
  refine ⟨Nat.lt_of_lt_of_le hlt hguar.itemCount, fun hfresh => ?_⟩
  exact hguar.spares.released r hlt hfresh (hmark (hguar.spares.fresh hlt hfresh))

theorem lasting_wholeOf : Lasting flags V (WholeOf flags r i) := by
  rintro t tr tr' s s' hs hs' hguar _ ⟨hlt, hwhole⟩
  refine ⟨Nat.lt_of_lt_of_le hlt hguar.itemCount, fun hfresh => ?_⟩
  exact hguar.spares.whole r hlt hfresh i (hwhole (hguar.spares.fresh hlt hfresh))

theorem lasting_sliceOf {m : MemRef} {k : Nat} : Lasting flags V (SliceOf m k) := by
  rintro t tr tr' s s' hs hs' hguar _ ⟨hlt, hk⟩
  exact ⟨Nat.lt_of_lt_of_le hlt hguar.memCount, hguar.slice m hlt k hk⟩

theorem lasting_placed {m : MemRef} {g : SegmentRef} : Lasting flags V (Placed flags m g) := by
  rintro t tr tr' s s' hs hs' hguar hle ⟨hlt, hall⟩
  refine ⟨Nat.lt_of_lt_of_le hlt hguar.segmentCount, fun k hk => ?_⟩
  rw [hguar.segment g hlt] at hk
  exact lasting_sliceOf t tr tr' s s' hs hs' hguar hle (hall k hk)

theorem lasting_dataOf {seg : BlockSegment} : Lasting flags V (DataOf flags seg r i) :=
  lasting_item (fun _ value => SegmentOk flags (blockPart flags value i) seg) r

theorem lasting_memOf {m : MemRef} : Lasting flags V (MemOf m r i) := by
  rintro t tr tr' s s' hs hs' hguar _ ⟨hlt, howner⟩
  exact ⟨Nat.lt_of_lt_of_le hlt hguar.memCount, (hguar.mem m hlt).trans howner⟩

theorem lasting_publishedOf {d : DiskRef} : Lasting flags V (PublishedOf d r i) := by
  rintro t tr tr' s s' hs hs' hguar _ ⟨hlt, howner, hpublished⟩
  obtain ⟨howner', _, hkeep⟩ := hguar.disk d hlt
  exact ⟨Nat.lt_of_lt_of_le hlt hguar.diskCount, howner'.trans howner, hkeep hpublished⟩

theorem lasting_isSegment {g : SegmentRef} {seg : BlockSegment} :
    Lasting flags V (IsSegment g seg) := by
  rintro t tr tr' s s' hs hs' hguar _ ⟨hlt, heq⟩
  exact ⟨Nat.lt_of_lt_of_le hlt hguar.segmentCount, (hguar.segment g hlt).trans heq⟩

theorem lasting_segmentOf {g : SegmentRef} : Lasting flags V (SegmentOf flags g r i) := by
  rintro t tr tr' s s' hs hs' hguar hle ⟨hr, hlt, hok⟩
  obtain ⟨hr', hok'⟩ := @lasting_dataOf flags V r i (s.segments g) t tr tr' s s' hs hs' hguar hle ⟨hr, hok⟩
  refine ⟨hr', Nat.lt_of_lt_of_le hlt hguar.segmentCount, ?_⟩
  rwa [hguar.segment g hlt]

theorem SegmentOf.dataOf {g : SegmentRef} {seg : BlockSegment} :
    Gets flags V (fun tr s => SegmentOf flags g r i tr s ∧ IsSegment g seg tr s)
      (DataOf flags seg r i) := by
  rintro tr s _ ⟨⟨hr, _, hok⟩, _, heq⟩
  exact ⟨hr, heq ▸ hok⟩

theorem PublishedOf.diskOf {d : DiskRef} : Gets flags V (PublishedOf d r i) (DiskOf d r i) :=
  fun _ _ _ h => ⟨h.1, h.2.1⟩

theorem IsItem.inItem {cacheKey : CacheKey} {value : IOBuf}
    (h : i < blockCountOf flags value.length) :
    Gets flags V (IsItem r cacheKey value) (InItem flags r i) := by
  rintro tr s _ ⟨hlt, _, rfl⟩
  exact ⟨hlt, h⟩

end Lasting

end Sharing

end StarCache
