import StarCache.Utils.LruPointers

/-!
# The container on the heap simulates the container

`name` sends the address of a handle that is alive to the number by which the container knows
it; an address that `malloc` returns again gets a new number. Each store of a call is matched by
a change of one part of the container, and the calls are put together from these.
-/

namespace StarCache

open MachineInt

namespace HandleTable

variable {K : Type} [DecidableEq K] {t t' : HandleTable K}

omit [DecidableEq K] in
theorem chainFrom_eq {start : Option Nat} {c : List Nat} {fuel : Nat}
    (h : IsChain t.nextHash start c) (hfuel : c.length ≤ fuel) : t.chainFrom fuel start = c := by
  induction c generalizing start fuel with
  | nil =>
      have hstart : start = none := h
      subst hstart
      cases fuel with
      | zero => rfl
      | succ fuel => rfl
  | cons e c ih =>
      obtain ⟨hstart, hrest⟩ := h
      subst hstart
      cases fuel with
      | zero => exact absurd hfuel (Nat.not_succ_le_zero _)
      | succ fuel =>
          unfold chainFrom
          rw [ih hrest (Nat.le_of_succ_le_succ hfuel)]

/-- The chains lead to the handles of the map only. -/
theorem Represents.chained {hash : K → Nat} {m : AList fun _ : K => Nat} (h : Represents hash t m)
    {e : Nat} (he : e ∈ t.chained) : m.lookup (t.key e) = some e := by
  obtain ⟨chains, hrep⟩ := h.rep
  obtain ⟨i, hi, hmem⟩ := List.mem_flatMap.mp he
  have hlt := List.mem_range.mp hi
  rw [chainFrom_eq (hrep.chain i hlt) (h.size ▸ hrep.length_le hlt)] at hmem
  exact (hrep.entry _ e).mpr ⟨rfl, i, hlt, hmem⟩

/-- A handle that no chain leads to is given its key. -/
theorem Represents.withHandle {hash : K → Nat} {m : AList fun _ : K => Nat}
    (h : Represents hash t m) {e : Nat} (hfresh : ∀ k, m.lookup k ≠ some e) (k : K) :
    Represents hash (t.withHandle e k (hash k)) m := by
  obtain ⟨chains, hrep⟩ := h.rep
  have hout : ∀ i < t.length, e ∉ chains i := fun i hi hmem =>
    hfresh (t.key e) ((hrep.entry _ e).mpr ⟨rfl, i, hi, hmem⟩)
  exact ⟨⟨chains, hrep.withHandle hout k⟩, h.size, h.few, h.load_le, h.power⟩

omit [DecidableEq K] in
theorem store_key (ptr : Link) (v : Option Nat) :
    (t.store ptr v).key = t.key ∧ (t.store ptr v).hash = t.hash := by
  unfold store
  cases ptr with
  | bucket i => exact ⟨rfl, rfl⟩
  | next e => exact ⟨rfl, rfl⟩

omit [DecidableEq K] in
theorem resize_key {r : Bool × HandleTable K} (h : t.resize = some r) :
    r.2.key = t.key ∧ r.2.hash = t.hash := by
  unfold resize at h
  split at h
  next => cases h
  next =>
    split at h
    next => cases h
    next =>
      split at h
      next =>
        cases h
        exact ⟨rfl, rfl⟩
      next =>
        cases h
        exact ⟨rfl, rfl⟩

/-- A call of the table changes no key. -/
theorem remove_key {key : K} {hash : Nat} {r : Option Nat × HandleTable K}
    (h : t.remove key hash = some r) : r.2.key = t.key ∧ r.2.hash = t.hash := by
  unfold remove at h
  split at h
  next => cases h
  next ptr _ =>
    split at h
    next =>
      cases h
      exact ⟨rfl, rfl⟩
    next e _ =>
      cases h
      exact store_key ptr (t.nextHash e)

theorem insert_key {e : Nat} {r : Option Nat × HandleTable K} (h : t.insert e = some r) :
    r.2.key = t.key ∧ r.2.hash = t.hash := by
  unfold insert at h
  split at h
  next => cases h
  next ptr _ =>
    dsimp only at h
    have hstore := @store_key K
      { t with nextHash := Function.update t.nextHash e ((t.load ptr).bind t.nextHash) } ptr (some e)
    generalize HandleTable.store _ ptr (some e) = t₁ at h hstore
    split at h
    next =>
      cases h
      exact hstore
    next =>
      split at h
      next =>
        obtain ⟨r', hresize, heq⟩ := Option.map_eq_some_iff.mp h
        subst heq
        obtain ⟨hkey, hhash⟩ := resize_key hresize
        exact ⟨hkey.trans hstore.1, hhash.trans hstore.2⟩
      next =>
        cases h
        exact hstore

end HandleTable

/-- Taking one element out commutes with a map that tells it from the others. -/
theorem map_erase_of_injOn {α β : Type} [DecidableEq α] [DecidableEq β] {f : α → β} {l : List α}
    {a : α} (hinj : ∀ x ∈ l, f x = f a → x = a) : (l.erase a).map f = (l.map f).erase (f a) := by
  induction l with
  | nil => rfl
  | cons x l ih =>
      rw [List.map_cons, List.erase_cons, List.erase_cons]
      by_cases heq : x = a
      · subst heq
        rw [if_pos (beq_self_eq_true x), if_pos (beq_self_eq_true (f x))]
      · have hne : f x ≠ f a := fun hf => heq (hinj x List.mem_cons_self hf)
        rw [if_neg (by simpa using heq), if_neg (by simpa using hne), List.map_cons,
          ih fun y hy => hinj y (List.mem_cons_of_mem _ hy)]

namespace LRUShard

variable {K : Type} [DecidableEq K]

/-- The shard holds the container, whose freed entries are `freed`. -/
structure Sim (hash : K → Nat) (name : Nat → Nat) (s : LRUShard K) (c : LRUContainer K)
    (freed : List Nat) : Prop where
  alive : ∀ e, s.Live e → name e < c.allocated ∧ name e ∉ freed
  inj : ∀ e e', s.Live e → s.Live e' → name e = name e' → e = e'
  onto : ∀ x < c.allocated, x ∉ freed → ∃ e, s.Live e ∧ name e = x
  fields : ∀ e, s.Live e → s.fields e =
    ⟨(c.handles (name e)).charge, (c.handles (name e)).valid, (c.handles (name e)).refs⟩
  key : ∀ e, s.Live e → s.table.key e = (c.handles (name e)).key
  hashed : ∀ e, s.Live e → s.table.hash e = hash (s.table.key e)
  table : ∃ m : AList fun _ : K => Nat, HandleTable.Represents hash s.table m ∧
    (∀ k, c.table.lookup k = (m.lookup k).map name) ∧ ∀ k e, m.lookup k = some e → s.Live e
  idle : ∃ l : List Nat, s.cells.Ring .lru (l.map .handle) ∧ c.lru = l.map name
  apart : ∀ e, s.Live e → name e ∉ c.lru → s.cells (.handle e) = some ⟨none, none⟩
  usage : s.usage = c.usage
  fits : c.usage < 2 ^ 64
  lookupCount : s.lookupCount = u64 c.lookupCount
  deleted : s.deleted.Perm (freed.map fun x => (c.handles x).key)

namespace Sim

variable {hash : K → Nat} {name : Nat → Nat} {s s' : LRUShard K} {c : LRUContainer K}
  {freed : List Nat} {e : Nat}

theorem read (h : Sim hash name s c freed) (hlive : s.Live e) : s.read e =
    some ⟨(c.handles (name e)).charge, (c.handles (name e)).valid, (c.handles (name e)).refs⟩ := by
  obtain ⟨links, hlinks⟩ := Option.isSome_iff_exists.mp hlive
  unfold LRUShard.read
  rw [hlinks, Option.map_some, h.fields e hlive]

theorem readKey (h : Sim hash name s c freed) (hlive : s.Live e) :
    s.readKey e = some (c.handles (name e)).key := by
  obtain ⟨links, hlinks⟩ := Option.isSome_iff_exists.mp hlive
  have hnext : links.next ≠ some (.handle e) := by
    by_cases hmem : name e ∈ c.lru
    · obtain ⟨l, hring, hlru⟩ := h.idle
      rw [hlru] at hmem
      obtain ⟨e', he', heq⟩ := List.mem_map.mp hmem
      have hlive' : s.Live e' := hring.alive _ (List.mem_cons_of_mem _ (List.mem_map_of_mem he'))
      rw [h.inj e' e hlive' hlive heq] at he'
      have hself := hring.next_ne_self (List.mem_map_of_mem he')
      rwa [Cells.next_some hlinks] at hself
    · have hnone := h.apart e hlive hmem
      rw [hlinks] at hnone
      cases hnone
      exact Option.some_ne_none _ |>.symm
  unfold LRUShard.readKey
  rw [hlinks]
  dsimp only
  rw [if_neg hnext, h.key e hlive]

/-- No call of the table reads a freed handle. -/
theorem chainsReadable (h : Sim hash name s c freed) : s.chainsReadable = true := by
  obtain ⟨m, hrep, _, hlive⟩ := h.table
  unfold LRUShard.chainsReadable
  rw [List.all_eq_true]
  intro e he
  rw [h.readKey (hlive _ e (hrep.chained he))]
  rfl

/-! ## Matching single stores -/

/-- A store to the fields of a handle. -/
theorem write (h : Sim hash name s c freed) (hlive : s.Live e) (valid : Bool) (refs : Nat) :
    Sim hash name (s.write e ⟨(c.handles (name e)).charge, valid, refs⟩)
      { c with handles := Function.update c.handles (name e)
                { c.handles (name e) with valid := valid, refs := refs } } freed := by
  have hkey : ∀ x, (Function.update c.handles (name e)
      { c.handles (name e) with valid := valid, refs := refs } x).key = (c.handles x).key := by
    intro x
    rw [Function.update_apply]
    split
    next heq => rw [heq]
    next => rfl
  refine { h with fields := ?_, key := ?_, deleted := ?_ }
  · intro x hx
    unfold LRUShard.write
    dsimp only
    by_cases heq : x = e
    · rw [heq, Function.update_self, Function.update_self]
    · have hne : name x ≠ name e := fun hname => heq (h.inj x e hx hlive hname)
      rw [Function.update_of_ne heq, Function.update_of_ne hne]
      exact h.fields x hx
  · intro x hx
    dsimp only
    rw [hkey]
    exact h.key x hx
  · dsimp only
    rw [List.map_congr_left fun x _ => hkey x]
    exact h.deleted

/-- The pointers change, but no handle comes or goes. -/
theorem withCells (h : Sim hash name s c freed) {cells : Cells Node} {lru l : List Nat}
    (hlive : ∀ x, (cells (.handle x)).isSome ↔ s.Live x)
    (hring : cells.Ring .lru (l.map .handle)) (hlru : lru = l.map name)
    (hapart : ∀ x, s.Live x → name x ∉ lru → cells (.handle x) = some ⟨none, none⟩) :
    Sim hash name { s with cells } { c with lru } freed := by
  refine ⟨fun x hx => h.alive x ((hlive x).mp hx),
    fun x y hx hy => h.inj x y ((hlive x).mp hx) ((hlive y).mp hy), ?_,
    fun x hx => h.fields x ((hlive x).mp hx), fun x hx => h.key x ((hlive x).mp hx),
    fun x hx => h.hashed x ((hlive x).mp hx), ?_, ⟨l, hring, hlru⟩,
    fun x hx => hapart x ((hlive x).mp hx), h.usage, h.fits, h.lookupCount, h.deleted⟩
  · intro x hx hnot
    obtain ⟨y, hy, heq⟩ := h.onto x hx hnot
    exact ⟨y, (hlive y).mpr hy, heq⟩
  · obtain ⟨m, hrep, hlookup, hmlive⟩ := h.table
    exact ⟨m, hrep, hlookup, fun k x hx => (hlive x).mpr (hmlive k x hx)⟩

/-- A handle leaves the idle list. -/
theorem lruRemove (h : Sim hash name s c freed) (hlive : s.Live e) (hmem : name e ∈ c.lru) :
    ∃ s', s.lruRemove e = some s' ∧ Sim hash name s' { c with lru := c.lru.erase (name e) } freed ∧
      (∀ x, s'.Live x ↔ s.Live x) ∧ s'.table = s.table ∧ s'.fields = s.fields := by
  obtain ⟨l, hring, hlru⟩ := h.idle
  have halive : ∀ x ∈ l, s.Live x := fun x hx =>
    hring.alive _ (List.mem_cons_of_mem _ (List.mem_map_of_mem hx))
  have hinj : ∀ x ∈ l, name x = name e → x = e := fun x hx heq => h.inj x e (halive x hx) hlive heq
  have hin : e ∈ l := by
    rw [hlru] at hmem
    obtain ⟨x, hx, heq⟩ := List.mem_map.mp hmem
    exact hinj x hx heq ▸ hx
  obtain ⟨cells, hrun, hring', hnone, hsome, hother⟩ := hring.unlink (List.mem_map_of_mem hin)
  have hlive' : ∀ x, (cells (.handle x)).isSome ↔ s.Live x := fun x => by rw [hsome]; rfl
  refine ⟨{ s with cells }, ?_, ?_, hlive', rfl, rfl⟩
  · unfold LRUShard.lruRemove
    rw [hrun, Option.map_some]
  · refine @withCells _ _ _ _ _ _ _ h _ _ (l.erase e) hlive' ?_ ?_ ?_
    · rwa [map_erase_of_injOn fun x hx heq => Node.handle.inj heq]
    · rw [hlru, map_erase_of_injOn hinj]
    · intro x hx hnot
      by_cases heq : x = e
      · rw [heq, hnone]
      · have hnotin : x ∉ l := by
          intro hxl
          refine hnot ?_
          have hne : name x ≠ name e := fun hname => heq (hinj x hxl hname)
          rw [hlru]
          exact (List.mem_erase_of_ne hne).mpr (List.mem_map_of_mem hxl)
        have hcell : Node.handle x ∉ Node.lru :: l.map Node.handle := by simpa using hnotin
        rw [hother _ hcell]
        refine h.apart x hx ?_
        rw [hlru]
        intro hxl
        obtain ⟨y, hy, hname⟩ := List.mem_map.mp hxl
        exact hnotin (h.inj y x (halive y hy) hx hname ▸ hy)

/-- A handle becomes the newest of the idle list. -/
theorem lruAppend (h : Sim hash name s c freed) (hlive : s.Live e) (hnot : name e ∉ c.lru) :
    ∃ s', s.lruAppend e = some s' ∧ Sim hash name s' { c with lru := c.lru ++ [name e] } freed ∧
      (∀ x, s'.Live x ↔ s.Live x) := by
  obtain ⟨l, hring, hlru⟩ := h.idle
  have halive : ∀ x ∈ l, s.Live x := fun x hx =>
    hring.alive _ (List.mem_cons_of_mem _ (List.mem_map_of_mem hx))
  have hout : e ∉ l := fun hin => hnot (hlru ▸ List.mem_map_of_mem hin)
  have hcell : Node.handle e ∉ Node.lru :: l.map Node.handle := by simpa using hout
  obtain ⟨cells, hrun, hring', hsome, hother⟩ := hring.linkBefore hcell hlive
  have hlive' : ∀ x, (cells (.handle x)).isSome ↔ s.Live x := fun x => by rw [hsome]; rfl
  refine ⟨{ s with cells }, ?_, ?_, hlive'⟩
  · unfold LRUShard.lruAppend
    rw [hrun, Option.map_some]
  · refine @withCells _ _ _ _ _ _ _ h _ _ (l ++ [e]) hlive' ?_ ?_ ?_
    · rwa [List.map_append]
    · rw [hlru, List.map_append, List.map_singleton]
    · intro x hx hnotin
      rw [List.mem_append, not_or, List.mem_singleton] at hnotin
      have hne : x ≠ e := fun heq => hnotin.2 (heq ▸ rfl)
      have hxl : x ∉ l := fun hin => hnotin.1 (hlru ▸ List.mem_map_of_mem hin)
      rw [hother _ (by simpa using hxl) fun heq => hne (Node.handle.inj heq)]
      exact h.apart x hx hnotin.1

theorem lessUsage (h : Sim hash name s c freed) {charge : Nat} (hle : charge ≤ c.usage) :
    Sim hash name (s.lessUsage charge) { c with usage := c.usage - charge } freed := by
  have hfits := h.fits
  have husage : u64 ((s.usage : Int) - charge) = c.usage - charge := by
    have hcast : ((s.usage : Int) - charge) = (c.usage - charge : Nat) := by
      rw [h.usage]
      omega
    rw [hcast]
    exact u64_of_lt (by omega)
  refine { h with usage := husage, fits := ?_ }
  dsimp only
  omega

theorem moreUsage (h : Sim hash name s c freed) {charge : Nat} (hfits : c.usage + charge < 2 ^ 64) :
    Sim hash name { s with usage := u64 (s.usage + charge) } { c with usage := c.usage + charge }
      freed := by
  have husage : u64 ((s.usage : Int) + charge) = c.usage + charge := by
    rw [h.usage]
    exact_mod_cast u64_of_lt hfits
  exact { h with usage := husage, fits := hfits }

/-- The entry of a key leaves the table. -/
theorem tableRemove (h : Sim hash name s c freed) (key : K) :
    ∃ found table, s.tableRemove key (hash key) = some (found, { s with table }) ∧
      c.table.lookup key = found.map name ∧ (∀ x, found = some x → s.Live x) ∧
      Sim hash name { s with table } { c with table := c.table.erase key } freed := by
  obtain ⟨m, hrep, hlookup, hlive⟩ := h.table
  obtain ⟨table, hrun, hrep'⟩ := HandleTable.remove_spec hrep key
  obtain ⟨hkey, hhash⟩ := HandleTable.remove_key hrun
  refine ⟨m.lookup key, table, ?_, hlookup key, hlive key, ?_⟩
  · unfold LRUShard.tableRemove
    rw [if_pos h.chainsReadable, hrun, Option.map_some]
  · refine { h with
      key := ?_
      hashed := ?_
      table := ⟨m.erase key, hrep', fun k => ?_, fun k x hx => ?_⟩ }
    · dsimp only at hkey ⊢
      rw [hkey]
      exact h.key
    · dsimp only at hkey hhash ⊢
      rw [hkey, hhash]
      exact h.hashed
    · dsimp only
      by_cases heq : k = key
      · subst heq
        rw [AList.lookup_erase, AList.lookup_erase]
        rfl
      · rw [AList.lookup_erase_ne heq, AList.lookup_erase_ne heq, hlookup]
    · by_cases heq : k = key
      · subst heq
        rw [AList.lookup_erase] at hx
        cases hx
      · rw [AList.lookup_erase_ne heq] at hx
        exact hlive k x hx

/-- An entry to which nothing leads any more is freed. -/
theorem free (h : Sim hash name s c freed) (hlive : s.Live e) (hidle : name e ∉ c.lru)
    (htable : ∀ k, c.table.lookup k ≠ some (name e)) :
    ∃ s', s.free e = some s' ∧ Sim hash name s' c (name e :: freed) ∧
      ∀ x, s'.Live x ↔ s.Live x ∧ x ≠ e := by
  have hlive' : ∀ x, (Function.update s.cells (.handle e) none (.handle x)).isSome ↔
      s.Live x ∧ x ≠ e := by
    intro x
    by_cases heq : x = e
    · subst heq
      rw [Function.update_self]
      simp
    · rw [Function.update_of_ne fun hn => heq (Node.handle.inj hn)]
      exact ⟨fun hx => ⟨hx, heq⟩, And.left⟩
  refine ⟨{ s with cells := Function.update s.cells (.handle e) none,
                   deleted := (c.handles (name e)).key :: s.deleted }, ?_, ?_, hlive'⟩
  · unfold LRUShard.free
    rw [h.readKey hlive, Option.map_some]
  · obtain ⟨l, hring, hlru⟩ := h.idle
    have hout : e ∉ l := fun hin => hidle (hlru ▸ List.mem_map_of_mem hin)
    refine ⟨?_, fun x y hx hy => h.inj x y ((hlive' x).mp hx).1 ((hlive' y).mp hy).1, ?_,
      fun x hx => h.fields x ((hlive' x).mp hx).1, fun x hx => h.key x ((hlive' x).mp hx).1,
      fun x hx => h.hashed x ((hlive' x).mp hx).1, ?_, ⟨l, hring.frame fun p hp => ?_, hlru⟩, ?_,
      h.usage, h.fits, h.lookupCount, ?_⟩
    · intro x hx
      obtain ⟨hx, hne⟩ := (hlive' x).mp hx
      obtain ⟨hlt, hnot⟩ := h.alive x hx
      refine ⟨hlt, ?_⟩
      rw [List.mem_cons, not_or]
      exact ⟨fun hname => hne (h.inj x e hx hlive hname), hnot⟩
    · intro x hx hnot
      rw [List.mem_cons, not_or] at hnot
      obtain ⟨y, hy, heq⟩ := h.onto x hx hnot.2
      exact ⟨y, (hlive' y).mpr ⟨hy, fun hye => hnot.1 (hye ▸ heq.symm)⟩, heq⟩
    · obtain ⟨m, hrep, hlookup, hmlive⟩ := h.table
      refine ⟨m, hrep, hlookup, fun k x hx => (hlive' x).mpr ⟨hmlive k x hx, fun heq => ?_⟩⟩
      refine htable k ?_
      rw [hlookup, hx, heq, Option.map_some]
    · refine Function.update_of_ne (fun heq => hout ?_) _ _
      subst heq
      simpa using hp
    · intro x hx hnot
      obtain ⟨hx, hne⟩ := (hlive' x).mp hx
      dsimp only
      rw [Function.update_of_ne fun hn => hne (Node.handle.inj hn)]
      exact h.apart x hx hnot
    · rw [List.map_cons]
      exact h.deleted.cons _

/-- `malloc` returns an address that is not in use; the container numbers it anew. -/
theorem allocate (h : Sim hash name s c freed) (hfresh : ¬ s.Live e)
    (hold : ∀ x ∈ freed, x < c.allocated) (key : K) (charge : Nat) :
    Sim hash (Function.update name e c.allocated) (s.allocate e key (hash key) charge)
        { c with handles := Function.update c.handles c.allocated
                  { key := key, charge := charge, valid := true, refs := 2 }
                 allocated := c.allocated + 1 } freed ∧
      ∀ x, (s.allocate e key (hash key) charge).Live x ↔ s.Live x ∨ x = e := by
  have hlive : ∀ x, (s.allocate e key (hash key) charge).Live x ↔ s.Live x ∨ x = e := by
    intro x
    unfold LRUShard.allocate Live
    dsimp only
    by_cases heq : x = e
    · subst heq
      rw [Function.update_self]
      simp
    · rw [Function.update_of_ne fun hn => heq (Node.handle.inj hn)]
      simp [heq]
  have hne : ∀ x, s.Live x → x ≠ e := fun x hx heq => hfresh (heq ▸ hx)
  have hname : ∀ x, s.Live x → Function.update name e c.allocated x = name x := fun x hx =>
    Function.update_of_ne (hne x hx) _ _
  have hlt : ∀ x, s.Live x → name x ≠ c.allocated := fun x hx => Nat.ne_of_lt (h.alive x hx).1
  refine ⟨?_, hlive⟩
  -- what is known of the handles carries over, and the new one is as `malloc` left it
  obtain ⟨l, hring, hlru⟩ := h.idle
  have hl : ∀ x ∈ l, s.Live x := fun x hx =>
    hring.alive _ (List.mem_cons_of_mem _ (List.mem_map_of_mem hx))
  have hself : Function.update name e c.allocated e = c.allocated := Function.update_self _ _ _
  refine ⟨?_, ?_, ?_, ?_, ?_, ?_, ?_, ⟨l, ?_, ?_⟩, ?_, h.usage, h.fits, h.lookupCount, ?_⟩
  · intro x hx
    cases (hlive x).mp hx with
    | inl hx =>
        rw [hname x hx]
        exact ⟨Nat.lt_succ_of_lt (h.alive x hx).1, (h.alive x hx).2⟩
    | inr heq =>
        rw [heq, hself]
        exact ⟨Nat.lt_succ_self _, fun hmem => Nat.lt_irrefl _ (hold _ hmem)⟩
  · intro x y hx hy hxy
    cases (hlive x).mp hx with
    | inl hx =>
        cases (hlive y).mp hy with
        | inl hy =>
            rw [hname x hx, hname y hy] at hxy
            exact h.inj x y hx hy hxy
        | inr heq =>
            rw [hname x hx, heq, hself] at hxy
            exact absurd hxy (hlt x hx)
    | inr heq =>
        cases (hlive y).mp hy with
        | inl hy =>
            rw [hname y hy, heq, hself] at hxy
            exact absurd hxy.symm (hlt y hy)
        | inr heq' => rw [heq, heq']
  · intro x hx hnot
    by_cases hnew : x = c.allocated
    · exact ⟨e, (hlive e).mpr (Or.inr rfl), hself.trans hnew.symm⟩
    · obtain ⟨y, hy, heq⟩ := h.onto x (Nat.lt_of_le_of_ne (Nat.le_of_lt_succ hx) hnew) hnot
      exact ⟨y, (hlive y).mpr (Or.inl hy), (hname y hy).trans heq⟩
  · intro x hx
    unfold LRUShard.allocate
    dsimp only
    cases (hlive x).mp hx with
    | inl hx =>
        rw [hname x hx, Function.update_of_ne (hne x hx), Function.update_of_ne (hlt x hx)]
        exact h.fields x hx
    | inr heq => rw [heq, hself, Function.update_self, Function.update_self]
  · intro x hx
    unfold LRUShard.allocate HandleTable.withHandle
    dsimp only
    cases (hlive x).mp hx with
    | inl hx =>
        rw [hname x hx, Function.update_of_ne (hne x hx), Function.update_of_ne (hlt x hx)]
        exact h.key x hx
    | inr heq => rw [heq, hself, Function.update_self, Function.update_self]
  · intro x hx
    unfold LRUShard.allocate HandleTable.withHandle
    dsimp only
    cases (hlive x).mp hx with
    | inl hx =>
        rw [Function.update_of_ne (hne x hx), Function.update_of_ne (hne x hx)]
        exact h.hashed x hx
    | inr heq => rw [heq, Function.update_self, Function.update_self]
  · obtain ⟨m, hrep, hlookup, hmlive⟩ := h.table
    refine ⟨m, hrep.withHandle (fun k hk => hfresh (hmlive k e hk)) key, fun k => ?_,
      fun k x hx => (hlive x).mpr (Or.inl (hmlive k x hx))⟩
    dsimp only
    rw [hlookup]
    cases hk : m.lookup k with
    | none => rfl
    | some x => rw [Option.map_some, Option.map_some, hname x (hmlive k x hk)]
  · refine hring.frame fun p hp => ?_
    refine Function.update_of_ne (fun heq => ?_) _ _
    subst heq
    have hin : e ∈ l := by simpa using hp
    exact hfresh (hl e hin)
  · dsimp only
    rw [hlru]
    exact (List.map_congr_left fun x hx => hname x (hl x hx)).symm
  · intro x hx hnot
    unfold LRUShard.allocate
    dsimp only at hnot ⊢
    cases (hlive x).mp hx with
    | inl hx =>
        rw [hname x hx] at hnot
        rw [Function.update_of_ne fun hn => hne x hx (Node.handle.inj hn)]
        exact h.apart x hx hnot
    | inr heq => rw [heq, Function.update_self]
  · have hkeys : (freed.map fun x => (Function.update c.handles c.allocated
        { key := key, charge := charge, valid := true, refs := 2 } x).key) =
        freed.map fun x => (c.handles x).key := by
      refine List.map_congr_left fun x hx => ?_
      rw [Function.update_of_ne (Nat.ne_of_lt (hold x hx))]
    dsimp only
    rw [hkeys]
    exact h.deleted

/-- The new handle enters the table, and an older one of its key leaves it. -/
theorem tableInsert (h : Sim hash name s c freed) (hfresh : ¬ s.Live e)
    (hold : ∀ x ∈ freed, x < c.allocated) (hroom : s.table.elems < 2 ^ 31) (key : K) (charge : Nat) :
    ∃ old table, (s.allocate e key (hash key) charge).tableInsert e =
        some (old, { s.allocate e key (hash key) charge with table }) ∧
      c.table.lookup key = old.map name ∧ (∀ x, old = some x → s.Live x) ∧
      Sim hash (Function.update name e c.allocated)
        { s.allocate e key (hash key) charge with table }
        { c with handles := Function.update c.handles c.allocated
                  { key := key, charge := charge, valid := true, refs := 2 }
                 allocated := c.allocated + 1
                 table := c.table.insert key c.allocated } freed := by
  obtain ⟨hnew, hlive⟩ := h.allocate hfresh hold key charge
  obtain ⟨m, hrep, hlookup, hmlive⟩ := h.table
  have hfew : (m.insert key e).keys.length ≤ 2 ^ 31 := by
    rw [HandleTable.keys_insert_length, ← hrep.size]
    split <;> omega
  obtain ⟨table, hrun, hrep'⟩ :=
    HandleTable.insert_spec hrep key (fun k hk => hfresh (hmlive k e hk)) hfew
  obtain ⟨hkey, hhash⟩ := HandleTable.insert_key hrun
  refine ⟨m.lookup key, table, ?_, hlookup key, hmlive key, ?_⟩
  · unfold LRUShard.tableInsert
    rw [if_pos hnew.chainsReadable]
    unfold LRUShard.allocate
    dsimp only
    rw [hrun, Option.map_some]
  · have hself : Function.update name e c.allocated e = c.allocated := Function.update_self _ _ _
    refine { hnew with
      key := ?_
      hashed := ?_
      table := ⟨m.insert key e, hrep', fun k => ?_, fun k x hx => ?_⟩ }
    · dsimp only at hkey ⊢
      rw [hkey]
      exact hnew.key
    · dsimp only at hkey hhash ⊢
      rw [hkey, hhash]
      exact hnew.hashed
    · dsimp only
      by_cases heq : k = key
      · subst heq
        rw [AList.lookup_insert, AList.lookup_insert, Option.map_some, hself]
      · rw [AList.lookup_insert_ne heq, AList.lookup_insert_ne heq, hlookup]
        cases hk : m.lookup k with
        | none => rfl
        | some x =>
            have hne : x ≠ e := fun hx => hfresh (hx ▸ hmlive k x hk)
            rw [Option.map_some, Option.map_some, Function.update_of_ne hne]
    · by_cases heq : k = key
      · subst heq
        rw [AList.lookup_insert] at hx
        exact (hlive x).mpr (Or.inr (Option.some.inj hx).symm)
      · rw [AList.lookup_insert_ne heq] at hx
        exact (hlive x).mpr (Or.inl (hmlive k x hx))

end Sim

end LRUShard

end StarCache
