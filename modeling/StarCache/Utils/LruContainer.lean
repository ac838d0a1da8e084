import Mathlib.Data.List.AList
import Mathlib.Data.List.Nodup
import Mathlib.Logic.Function.Basic
import Mathlib.Tactic.Ring

/-!
# The LRU container

One shard of the eviction component: a table from keys to handles and the list
of idle handles, oldest first. The hash table is the finite map it implements,
the circular list is the list of the entries between its dummy head's neighbours.
A handle is named by the number of `malloc` calls before its own.
-/

namespace StarCache

structure LRUHandle (K : Type) where
  key : K
  charge : Nat
  /-- Whether the entry is in the container. -/
  valid : Bool
  refs : Nat
deriving Inhabited

structure LRUContainer (K : Type) where
  handles : Nat → LRUHandle K
  allocated : Nat
  table : AList fun _ : K => Nat
  lru : List Nat
  usage : Nat
  lookupCount : Nat

namespace LRUContainer

variable {K : Type} [DecidableEq K]

instance [Inhabited K] : Inhabited (LRUContainer K) :=
  ⟨⟨fun _ => default, 0, ∅, [], 0, 0⟩⟩

/-- Drop one reference of `e` and set its flag. -/
def unref (c : LRUContainer K) (e : Nat) (valid : Bool) : LRUContainer K :=
  let h := c.handles e
  { c with handles := Function.update c.handles e { h with refs := h.refs - 1, valid } }

def lookup (c : LRUContainer K) (key : K) : Option Nat × LRUContainer K :=
  let c := { c with lookupCount := c.lookupCount + 1 }
  match c.table.lookup key with
  | none => (none, c)
  | some e =>
      let h := c.handles e
      (some e, { c with
        lru := if h.refs = 1 then c.lru.erase e else c.lru
        handles := Function.update c.handles e { h with refs := h.refs + 1 } })

def release (c : LRUContainer K) (e : Nat) : LRUContainer K :=
  let h := c.handles e
  let c := c.unref e h.valid
  if h.refs - 1 = 0 then
    { c with usage := c.usage - h.charge }
  else if h.valid = true ∧ h.refs - 1 = 1 then
    -- back to the newest end of the list
    { c with lru := c.lru ++ [e] }
  else c

def insert (c : LRUContainer K) (key : K) (charge : Nat) : Nat × LRUContainer K :=
  let e := c.allocated
  -- one reference for the caller, one for the container
  let fresh : LRUHandle K := { key, charge, valid := true, refs := 2 }
  let c' := { c with
    handles := Function.update c.handles e fresh
    allocated := e + 1
    table := c.table.insert key e
    usage := c.usage + charge }
  match c.table.lookup key with
  | none => (e, c')
  | some old =>
      let h := c.handles old
      let c'' := c'.unref old false
      if h.refs - 1 = 0 then
        (e, { c'' with usage := c''.usage - h.charge, lru := c''.lru.erase old })
      else (e, c'')

def erase (c : LRUContainer K) (key : K) : LRUContainer K :=
  match c.table.lookup key with
  | none => c
  | some e =>
      let h := c.handles e
      let c' := { c.unref e false with table := c.table.erase key }
      if h.refs - 1 = 0 then
        { c' with
          usage := c'.usage - h.charge
          lru := if h.valid = true then c'.lru.erase e else c'.lru }
      else c'

def evictOneEntry (c : LRUContainer K) (e : Nat) : LRUContainer K :=
  let h := c.handles e
  let c' := c.unref e false
  { c' with lru := c.lru.erase e, table := c.table.erase h.key, usage := c.usage - h.charge }

/-- The loop of `_evict_from_lru`; the list is what is left of the idle list. -/
def evictLoop (charge : Nat) : List Nat → Nat → LRUContainer K → List Nat × LRUContainer K
  | [], _, c => ([], c)
  | e :: rest, evictedSize, c =>
      if evictedSize < charge then
        let size := (c.handles e).charge
        let r := evictLoop charge rest (evictedSize + size) (c.evictOneEntry e)
        (e :: r.1, r.2)
      else ([], c)

/-- `evict`, followed by the copying of the keys in `LruEvictionPolicy::evict`. -/
def evict (c : LRUContainer K) (charge : Nat) : List K × LRUContainer K :=
  let r := evictLoop charge c.lru 0 c
  (r.1.map fun e => (r.2.handles e).key, r.2)

omit [DecidableEq K] in
@[simp] theorem unref_table (c : LRUContainer K) (e : Nat) (v : Bool) : (c.unref e v).table = c.table := rfl
omit [DecidableEq K] in
@[simp] theorem unref_lru (c : LRUContainer K) (e : Nat) (v : Bool) : (c.unref e v).lru = c.lru := rfl
omit [DecidableEq K] in
@[simp] theorem unref_allocated (c : LRUContainer K) (e : Nat) (v : Bool) :
    (c.unref e v).allocated = c.allocated := rfl

omit [DecidableEq K] in
theorem unref_handles (c : LRUContainer K) (e e' : Nat) (v : Bool) :
    (c.unref e v).handles e' = if e' = e then
      { c.handles e with refs := (c.handles e).refs - 1, valid := v } else c.handles e' := by
  unfold unref
  exact Function.update_apply ..

omit [DecidableEq K] in
/-- Handles keep their keys. -/
theorem unref_key (c : LRUContainer K) (e x : Nat) (v : Bool) :
    ((c.unref e v).handles x).key = (c.handles x).key := by
  rw [unref_handles]
  split
  next heq => rw [heq]
  next => rfl

/-! ## The container invariant -/

/-- `out` lists the handles that callers hold, with multiplicity. -/
structure Inv (c : LRUContainer K) (out : List Nat) : Prop where
  fresh : ∀ key e, c.table.lookup key = some e → e < c.allocated
  out_fresh : ∀ e ∈ out, e < c.allocated
  entry : ∀ key e, c.table.lookup key = some e →
    (c.handles e).key = key ∧ (c.handles e).valid = true ∧ (c.handles e).refs = 1 + out.count e
  stale : ∀ e < c.allocated, (∀ key, c.table.lookup key ≠ some e) →
    (c.handles e).valid = false ∧ (c.handles e).refs = out.count e
  nodup : c.lru.Nodup
  idle : ∀ e, e ∈ c.lru ↔ (∃ key, c.table.lookup key = some e) ∧ e ∉ out

/-- The key has an entry. -/
def Tracked (c : LRUContainer K) (key : K) : Prop := key ∈ c.table

instance (c : LRUContainer K) (key : K) : Decidable (c.Tracked key) :=
  inferInstanceAs (Decidable (key ∈ c.table.keys))

/-- The key has an entry that eviction may take. -/
def Idle (c : LRUContainer K) (key : K) : Prop :=
  ∃ e, c.table.lookup key = some e ∧ e ∈ c.lru

theorem Idle.tracked {c : LRUContainer K} {key : K} (h : c.Idle key) : c.Tracked key := by
  obtain ⟨e, he, _⟩ := h
  exact AList.lookup_isSome.mp (by simp [he])

namespace Inv

variable {c : LRUContainer K} {out : List Nat}

/-- Without a handle outside, every entry may be taken. -/
theorem idle_of_tracked (h : c.Inv []) {key : K} (htracked : c.Tracked key) : c.Idle key := by
  obtain ⟨e, he⟩ := Option.isSome_iff_exists.mp (AList.lookup_isSome.mpr htracked)
  exact ⟨e, he, (h.idle e).mpr ⟨⟨key, he⟩, List.not_mem_nil⟩⟩

/-- A handle serves one key. -/
theorem key_unique (h : c.Inv out) {key key' : K} {e : Nat}
    (hk : c.table.lookup key = some e) (hk' : c.table.lookup key' = some e) : key = key' := by
  rw [← (h.entry key e hk).1, ← (h.entry key' e hk').1]

theorem tracked_iff (key : K) : c.Tracked key ↔ ∃ e, c.table.lookup key = some e := by
  unfold Tracked
  rw [← AList.lookup_isSome, Option.isSome_iff_exists]

theorem idle_iff (h : c.Inv out) {key : K} {e : Nat} (hk : c.table.lookup key = some e) :
    c.Idle key ↔ e ∉ out := by
  constructor
  · rintro ⟨e', he', hmem⟩
    rw [hk] at he'
    cases he'
    exact ((h.idle e).mp hmem).2
  · intro hout
    exact ⟨e, hk, (h.idle e).mpr ⟨⟨key, hk⟩, hout⟩⟩

theorem lookup_none (h : c.Inv out) {key : K} (hr : (c.lookup key).1 = none) :
    ¬ c.Tracked key ∧ (c.lookup key).2.Inv out ∧ (c.lookup key).2.table = c.table ∧
      (c.lookup key).2.lru = c.lru := by
  unfold lookup at hr ⊢
  dsimp only at hr ⊢
  cases hk : c.table.lookup key with
  | some e => simp [hk] at hr
  | none =>
      refine ⟨?_, ⟨h.fresh, h.out_fresh, h.entry, h.stale, h.nodup, h.idle⟩, rfl, rfl⟩
      rw [tracked_iff]
      rintro ⟨e, he⟩
      simp [hk] at he

/-- A successful lookup hands out one more reference and takes the entry off
the idle list. -/
theorem lookup_some (h : c.Inv out) {key : K} {e : Nat} (hr : (c.lookup key).1 = some e) :
    c.table.lookup key = some e ∧ (c.lookup key).2.Inv (e :: out) ∧
      (c.lookup key).2.table = c.table := by
  unfold lookup at hr ⊢
  dsimp only at hr ⊢
  cases hk : c.table.lookup key with
  | none => simp [hk] at hr
  | some e' =>
      simp only [hk, Option.some.injEq] at hr
      subst hr
      refine ⟨rfl, ?_, rfl⟩
      have hentry := h.entry key e' hk
      have hlru : ∀ x, x ∈ (if (c.handles e').refs = 1 then c.lru.erase e' else c.lru) ↔
          x ∈ c.lru ∧ x ≠ e' := by
        intro x
        split
        next => rw [h.nodup.mem_erase_iff, and_comm]
        next hrefs =>
          have hout : e' ∉ c.lru := by
            intro hmem
            have := ((h.idle e').mp hmem).2
            rw [hentry.2.2, List.count_eq_zero.mpr this] at hrefs
            exact hrefs rfl
          exact ⟨fun hx => ⟨hx, fun heq => hout (heq ▸ hx)⟩, And.left⟩
      refine ⟨h.fresh, ?_, ?_, ?_, ?_, ?_⟩
      · intro x hx
        rcases List.mem_cons.mp hx with rfl | hx
        · exact h.fresh key x hk
        · exact h.out_fresh x hx
      · intro key' x hx
        have hx' := h.entry key' x hx
        dsimp only
        rw [Function.update_apply, List.count_cons]
        by_cases heq : x = e'
        · subst heq
          simp only [if_true, beq_self_eq_true]
          exact ⟨hx'.1, hx'.2.1, by omega⟩
        · simpa [heq, Ne.symm heq] using hx'
      · intro x hlt hx
        dsimp only
        have hne : x ≠ e' := fun heq => hx key (heq ▸ hk)
        rw [Function.update_of_ne hne, List.count_cons]
        simpa [Ne.symm hne] using h.stale x hlt hx
      · dsimp only
        split
        · exact h.nodup.erase e'
        · exact h.nodup
      · intro x
        dsimp only
        rw [hlru, h.idle x, List.mem_cons]
        tauto

theorem lookup_idle (h : c.Inv out) (key key' : K) :
    (c.lookup key).2.Idle key' ↔ c.Idle key' ∧ key' ≠ key := by
  cases hr : (c.lookup key).1 with
  | none =>
      obtain ⟨hnot, _, htable, hlru⟩ := h.lookup_none hr
      unfold Idle
      rw [htable, hlru]
      refine ⟨fun hidle => ⟨hidle, ?_⟩, And.left⟩
      rintro rfl
      exact hnot (Idle.tracked hidle)
  | some e =>
      obtain ⟨hk, hinv, htable⟩ := h.lookup_some hr
      constructor
      · rintro ⟨x, hx, hmem⟩
        have hout := ((hinv.idle x).mp hmem).2
        rw [htable] at hx
        rw [List.mem_cons, not_or] at hout
        refine ⟨(h.idle_iff hx).mpr hout.2, ?_⟩
        rintro rfl
        rw [hx] at hk
        exact hout.1 (Option.some.inj hk)
      · rintro ⟨⟨x, hx, hmem⟩, hne⟩
        refine ⟨x, htable ▸ hx, (hinv.idle x).mpr ⟨⟨key', htable ▸ hx⟩, ?_⟩⟩
        rw [List.mem_cons, not_or]
        refine ⟨?_, ((h.idle x).mp hmem).2⟩
        rintro rfl
        exact hne (h.key_unique hx hk)

theorem count_returned (e x : Nat) :
    (out.erase e).count x = out.count x - if x = e then 1 else 0 := by
  rw [List.count_erase]
  by_cases hx : x = e
  · simp [hx]
  · simp [hx, Ne.symm hx]

/-- A handle that is given back, up to what becomes of the list. -/
theorem returned {c' : LRUContainer K} {e : Nat} (h : c.Inv out) (he : e ∈ out)
    (hhandles : c'.handles = (c.unref e (c.handles e).valid).handles)
    (halloc : c'.allocated = c.allocated) (htable : c'.table = c.table) (hnodup : c'.lru.Nodup)
    (hlru : ∀ x, x ∈ c'.lru ↔ (∃ key, c.table.lookup key = some x) ∧ x ∉ out.erase e) :
    c'.Inv (out.erase e) := by
  have hcount : 0 < out.count e := List.count_pos_iff.mpr he
  have hsame : ∀ x, (c'.handles x).key = (c.handles x).key ∧
      (c'.handles x).valid = (c.handles x).valid ∧
      (c'.handles x).refs = (c.handles x).refs - if x = e then 1 else 0 := by
    intro x
    rw [hhandles, unref_handles]
    split
    next heq =>
      subst heq
      exact ⟨rfl, rfl, rfl⟩
    next => exact ⟨rfl, rfl, rfl⟩
  refine ⟨?_, ?_, ?_, ?_, hnodup, ?_⟩
  · rw [halloc, htable]
    exact h.fresh
  · rw [halloc]
    exact fun x hx => h.out_fresh x (List.mem_of_mem_erase hx)
  · intro key x hx
    rw [htable] at hx
    obtain ⟨hkey, hvalid, hrefs⟩ := h.entry key x hx
    obtain ⟨ek, ev, er⟩ := hsame x
    rw [ek, ev, er, count_returned]
    refine ⟨hkey, hvalid, ?_⟩
    split
    next heq => subst heq; omega
    next => omega
  · intro x hx hnot
    rw [halloc] at hx
    rw [htable] at hnot
    obtain ⟨hvalid, hrefs⟩ := h.stale x hx hnot
    obtain ⟨_, ev, er⟩ := hsame x
    rw [ev, er, count_returned]
    exact ⟨hvalid, by rw [hrefs]⟩
  · rw [htable]
    exact hlru

/-- Giving a handle back keeps the table; the entry becomes idle when it is
still in the table and this was the last handle. -/
theorem release (h : c.Inv out) {e : Nat} (he : e ∈ out) :
    (c.release e).Inv (out.erase e) ∧ (c.release e).table = c.table := by
  have hcount : 0 < out.count e := List.count_pos_iff.mpr he
  have hlt := h.out_fresh e he
  have hnlru : e ∉ c.lru := fun hmem => ((h.idle e).mp hmem).2 he
  have hmem_erase : ∀ x, x ≠ e → (x ∈ out.erase e ↔ x ∈ out) :=
    fun x hne => List.mem_erase_of_ne hne
  have he_erase : e ∈ out.erase e ↔ 1 < out.count e := by
    rw [← List.count_pos_iff, count_returned, if_pos rfl]
    omega
  unfold LRUContainer.release
  dsimp only
  by_cases hk : ∃ key, c.table.lookup key = some e
  · obtain ⟨key, hkey⟩ := hk
    obtain ⟨_, hvalid, hrefs⟩ := h.entry key e hkey
    rw [if_neg (by omega)]
    by_cases hlast : out.count e = 1
    · rw [if_pos ⟨hvalid, by omega⟩]
      refine ⟨h.returned he rfl rfl rfl ?_ ?_, rfl⟩
      · exact List.Nodup.append h.nodup (List.nodup_singleton e) (by simpa using hnlru)
      · intro x
        rw [List.mem_append, List.mem_singleton]
        by_cases hx : x = e
        · subst hx
          rw [he_erase]
          simp [hlast, hnlru]
          exact ⟨key, hkey⟩
        · rw [hmem_erase x hx]
          simpa [hx] using h.idle x
    · rw [if_neg (by omega)]
      refine ⟨h.returned he rfl rfl rfl h.nodup ?_, rfl⟩
      intro x
      by_cases hx : x = e
      · subst hx
        rw [he_erase]
        constructor
        · exact fun hmem => absurd hmem hnlru
        · rintro ⟨_, hnot⟩
          omega
      · rw [hmem_erase x hx]
        exact h.idle x
  · push Not at hk
    obtain ⟨hvalid, hrefs⟩ := h.stale e hlt hk
    have hlist : ∀ x, x ∈ c.lru ↔ (∃ key, c.table.lookup key = some x) ∧ x ∉ out.erase e := by
      intro x
      by_cases hx : x = e
      · subst hx
        constructor
        · exact fun hmem => absurd hmem hnlru
        · rintro ⟨⟨key, hkey⟩, _⟩
          exact absurd hkey (hk key)
      · rw [hmem_erase x hx]
        exact h.idle x
    split
    next => exact ⟨h.returned he rfl rfl rfl h.nodup hlist, rfl⟩
    next =>
      rw [if_neg (by simp [hvalid])]
      exact ⟨h.returned he rfl rfl rfl h.nodup hlist, rfl⟩


/-- After a release the idle keys are the old ones and at most the key of the
entry that was given back. -/
theorem release_idle (h : c.Inv out) {e : Nat} (he : e ∈ out) (key : K) :
    (c.release e).Idle key ↔ c.Idle key ∨ (c.table.lookup key = some e ∧ out.count e = 1) := by
  obtain ⟨hinv, htable⟩ := h.release he
  constructor
  · rintro ⟨x, hx, hmem⟩
    rw [htable] at hx
    have hout := ((hinv.idle x).mp hmem).2
    by_cases heq : x = e
    · subst heq
      refine Or.inr ⟨hx, ?_⟩
      rw [← List.count_pos_iff, List.count_erase_self] at hout
      have := List.count_pos_iff.mpr he
      omega
    · refine Or.inl ((h.idle_iff hx).mpr fun hxout => hout ?_)
      rwa [List.mem_erase_of_ne heq]
  · rintro (hidle | ⟨hk, hcount⟩)
    · obtain ⟨x, hx, hmem⟩ := hidle
      refine ⟨x, htable ▸ hx, (hinv.idle x).mpr ⟨⟨key, htable ▸ hx⟩, fun hxout => ?_⟩⟩
      exact ((h.idle x).mp hmem).2 (List.mem_of_mem_erase hxout)
    · refine ⟨e, htable ▸ hk, (hinv.idle e).mpr ⟨⟨key, htable ▸ hk⟩, ?_⟩⟩
      rw [← List.count_pos_iff, List.count_erase_self]
      omega

/-- What removing the entry `e` of `key` from the table leaves: the invariant for
the remaining table, whatever happens to the list otherwise. -/
theorem remove_entry (h : c.Inv out) {key : K} {e : Nat} (hk : c.table.lookup key = some e)
    {c' : LRUContainer K} (hhandles : c'.handles = (c.unref e false).handles)
    (hallocated : c'.allocated = c.allocated) (htable : c'.table = c.table.erase key)
    (hlru : c'.lru = c.lru.erase e) : c'.Inv out := by
  have hlookup : ∀ key' x, c'.table.lookup key' = some x ↔
      c.table.lookup key' = some x ∧ key' ≠ key := by
    intro key' x
    rw [htable]
    by_cases heq : key' = key
    · subst heq
      simp
    · simp [AList.lookup_erase_ne heq, heq]
  have hne : ∀ key' x, c.table.lookup key' = some x → key' ≠ key → x ≠ e := by
    rintro key' x hx hkey rfl
    exact hkey (h.key_unique hx hk)
  obtain ⟨_, _, hrefs⟩ := h.entry key e hk
  refine ⟨?_, ?_, ?_, ?_, ?_, ?_⟩
  · intro key' x hx
    rw [hallocated]
    exact h.fresh key' x ((hlookup key' x).mp hx).1
  · rw [hallocated]
    exact h.out_fresh
  · intro key' x hx
    obtain ⟨hx, hkey⟩ := (hlookup key' x).mp hx
    rw [hhandles, unref_handles, if_neg (hne key' x hx hkey)]
    exact h.entry key' x hx
  · intro x hlt hx
    rw [hallocated] at hlt
    rw [hhandles, unref_handles]
    split
    next heq =>
      subst heq
      exact ⟨rfl, by dsimp only; omega⟩
    next hxe =>
      apply h.stale x hlt
      intro key' hx'
      refine hx key' ((hlookup key' x).mpr ⟨hx', ?_⟩)
      rintro rfl
      rw [hk] at hx'
      exact hxe (Option.some.inj hx').symm
  · rw [hlru]
    exact h.nodup.erase e
  · intro x
    rw [hlru, h.nodup.mem_erase_iff, h.idle x]
    constructor
    · rintro ⟨hxe, ⟨key', hx⟩, hout⟩
      refine ⟨⟨key', (hlookup key' x).mpr ⟨hx, ?_⟩⟩, hout⟩
      rintro rfl
      rw [hk] at hx
      exact hxe (Option.some.inj hx).symm
    · rintro ⟨⟨key', hx⟩, hout⟩
      obtain ⟨hx, hkey⟩ := (hlookup key' x).mp hx
      exact ⟨hne key' x hx hkey, ⟨key', hx⟩, hout⟩

/-- An entry some caller holds is not on the list. -/
theorem erase_lru_of_held (h : c.Inv out) {e : Nat} (he : e ∈ out) : c.lru.erase e = c.lru :=
  List.erase_of_not_mem fun hmem => ((h.idle e).mp hmem).2 he

theorem erase (h : c.Inv out) (key : K) :
    (c.erase key).Inv out ∧ (c.erase key).table = c.table.erase key := by
  unfold LRUContainer.erase
  cases hk : c.table.lookup key with
  | none =>
      refine ⟨h, ?_⟩
      have hnot : key ∉ c.table := AList.lookup_eq_none.mp hk
      apply AList.ext
      exact (List.kerase_of_notMem_keys hnot).symm
  | some e =>
      obtain ⟨_, hvalid, hrefs⟩ := h.entry key e hk
      dsimp only
      by_cases hlast : (c.handles e).refs - 1 = 0
      · simp only [hlast, hvalid, if_true]
        exact ⟨h.remove_entry hk rfl rfl rfl rfl, trivial⟩
      · rw [if_neg hlast]
        have hout : e ∈ out := by
          rw [← List.count_pos_iff]
          omega
        exact ⟨h.remove_entry hk rfl rfl rfl (h.erase_lru_of_held hout).symm, rfl⟩

theorem erase_tracked (h : c.Inv out) (key key' : K) :
    (c.erase key).Tracked key' ↔ c.Tracked key' ∧ key' ≠ key := by
  unfold Tracked
  rw [(h.erase key).2, AList.mem_erase, and_comm]

theorem erase_idle (h : c.Inv out) (key key' : K) :
    (c.erase key).Idle key' ↔ c.Idle key' ∧ key' ≠ key := by
  obtain ⟨hinv, htable⟩ := h.erase key
  by_cases heq : key' = key
  · subst heq
    simp only [ne_eq, not_true_eq_false, and_false, iff_false]
    rintro ⟨x, hx, _⟩
    rw [htable, AList.lookup_erase] at hx
    cases hx
  · simp only [ne_eq, heq, not_false_eq_true, and_true]
    have hlookup : (c.erase key).table.lookup key' = c.table.lookup key' := by
      rw [htable, AList.lookup_erase_ne heq]
    constructor
    · rintro ⟨x, hx, hmem⟩
      exact (h.idle_iff (hlookup ▸ hx)).mpr ((hinv.idle x).mp hmem).2
    · rintro ⟨x, hx, hmem⟩
      exact (hinv.idle_iff (hlookup ▸ hx)).mpr ((h.idle x).mp hmem).2


/-- A new entry, with its handle given out, comes into a container without an entry of the key. -/
theorem entered {c' : LRUContainer K} {key : K} (charge : Nat) (h : c.Inv out)
    (hnone : ∀ x, c.table.lookup key ≠ some x)
    (hhandles : ∀ x, c'.handles x = if x = c.allocated then ⟨key, charge, true, 2⟩ else c.handles x)
    (halloc : c'.allocated = c.allocated + 1) (htable : c'.table = c.table.insert key c.allocated)
    (hlru : c'.lru = c.lru) : c'.Inv (c.allocated :: out) := by
  have hfresh : c.allocated ∉ out := fun hmem => absurd (h.out_fresh _ hmem) (Nat.lt_irrefl _)
  have hlookup : ∀ key' x, c'.table.lookup key' = some x ↔
      (key' = key ∧ x = c.allocated) ∨ c.table.lookup key' = some x := by
    intro key' x
    rw [htable]
    by_cases heq : key' = key
    · subst heq
      simp [hnone, eq_comm]
    · simp [AList.lookup_insert_ne heq, heq]
  have hold : ∀ key' x, c.table.lookup key' = some x → x ≠ c.allocated := by
    rintro key' x hx rfl
    exact absurd (h.fresh key' _ hx) (Nat.lt_irrefl _)
  refine ⟨?_, ?_, ?_, ?_, hlru ▸ h.nodup, ?_⟩
  · intro key' x hx
    rw [halloc]
    rcases (hlookup key' x).mp hx with ⟨_, rfl⟩ | hx
    · exact Nat.lt_succ_self _
    · exact Nat.lt_succ_of_lt (h.fresh key' x hx)
  · intro x hx
    rw [halloc]
    rcases List.mem_cons.mp hx with rfl | hx
    · exact Nat.lt_succ_self _
    · exact Nat.lt_succ_of_lt (h.out_fresh x hx)
  · intro key' x hx
    rw [hhandles, List.count_cons]
    rcases (hlookup key' x).mp hx with ⟨rfl, rfl⟩ | hx
    · simp [List.count_eq_zero.mpr hfresh]
    · have hne := hold key' x hx
      simpa [hne, Ne.symm hne] using h.entry key' x hx
  · intro x hlt hx
    rw [halloc] at hlt
    have hne : x ≠ c.allocated := by
      rintro rfl
      exact hx key ((hlookup key _).mpr (Or.inl ⟨rfl, rfl⟩))
    rw [hhandles, if_neg hne, List.count_cons]
    simp only [beq_iff_eq, Ne.symm hne, if_false, Nat.add_zero]
    refine h.stale x (by omega) fun key' hx' => ?_
    exact hx key' ((hlookup key' x).mpr (Or.inr hx'))
  · intro x
    rw [hlru, h.idle x, List.mem_cons, not_or]
    constructor
    · rintro ⟨⟨key', hx⟩, hout⟩
      exact ⟨⟨key', (hlookup key' x).mpr (Or.inr hx)⟩, hold key' x hx, hout⟩
    · rintro ⟨⟨key', hx⟩, hne, hout⟩
      rcases (hlookup key' x).mp hx with ⟨_, heq⟩ | hx
      · exact absurd heq hne
      · exact ⟨⟨key', hx⟩, hout⟩

/-- Inserting returns the handle of a new entry; an older entry of the key
leaves the table. -/
theorem insert (h : c.Inv out) (key : K) (charge : Nat) :
    (c.insert key charge).1 = c.allocated ∧
      (c.insert key charge).2.Inv (c.allocated :: out) ∧
      (c.insert key charge).2.table = c.table.insert key c.allocated := by
  unfold LRUContainer.insert
  dsimp only
  cases hk : c.table.lookup key with
  | none =>
      refine ⟨rfl, ?_, rfl⟩
      exact h.entered charge (by simp [hk]) (fun x => Function.update_apply ..) rfl rfl rfl
  | some old =>
      have holdlt := h.fresh key old hk
      have hne : old ≠ c.allocated := Nat.ne_of_lt holdlt
      obtain ⟨_, _, hrefs⟩ := h.entry key old hk
      dsimp only
      let c₀ : LRUContainer K :=
        { c.unref old false with table := c.table.erase key, lru := c.lru.erase old }
      have h₀ : c₀.Inv out := h.remove_entry hk rfl rfl rfl rfl
      have hhandles : ∀ x, (Function.update (Function.update c.handles c.allocated
          ⟨key, charge, true, 2⟩) old { c.handles old with
            refs := (c.handles old).refs - 1, valid := false }) x =
          if x = c₀.allocated then ⟨key, charge, true, 2⟩ else c₀.handles x := by
        intro x
        rw [Function.update_apply, Function.update_apply]
        change _ = if x = c.allocated then _ else (c.unref old false).handles x
        rw [unref_handles]
        by_cases hx : x = old
        · subst hx
          simp [hne]
        · simp [hx]
      have hins : c₀.table.insert key c.allocated = c.table.insert key c.allocated := by
        apply AList.ext
        rw [AList.entries_insert, AList.entries_insert]
        exact congrArg _ (List.kerase_of_notMem_keys
          (List.notMem_keys_kerase key c.table.nodupKeys))
      have hnone : ∀ x, c₀.table.lookup key ≠ some x := by simp [c₀]
      by_cases hlast : (c.handles old).refs - 1 = 0
      · rw [if_pos hlast]
        refine ⟨rfl, ?_, rfl⟩
        refine entered (c := c₀) charge h₀ hnone ?_ rfl hins.symm rfl
        intro x
        rw [← hhandles]
        simp [unref, Function.update_of_ne hne]
      · rw [if_neg hlast]
        have hout : old ∈ out := by
          rw [← List.count_pos_iff]
          omega
        refine ⟨rfl, ?_, rfl⟩
        refine entered (c := c₀) charge h₀ hnone ?_ rfl hins.symm (h.erase_lru_of_held hout).symm
        intro x
        rw [← hhandles]
        simp [unref, Function.update_of_ne hne]


theorem evictOneEntry (h : c.Inv out) {key : K} {e : Nat} (hk : c.table.lookup key = some e) :
    (c.evictOneEntry e).Inv out ∧ (c.evictOneEntry e).table = c.table.erase key := by
  have hkey := (h.entry key e hk).1
  have htable : (c.evictOneEntry e).table = c.table.erase key := by
    rw [← hkey]
    rfl
  exact ⟨h.remove_entry hk rfl rfl htable rfl, htable⟩

/-- The eviction loop over the idle list: it takes a prefix of the list, and the
keys of the prefix leave the table. -/
theorem evictLoop (charge : Nat) : ∀ (l : List Nat) (size : Nat) (c : LRUContainer K),
    c.Inv out → c.lru = l →
    (LRUContainer.evictLoop charge l size c).2.Inv out ∧
      (∀ x, ((LRUContainer.evictLoop charge l size c).2.handles x).key = (c.handles x).key) ∧
      (LRUContainer.evictLoop charge l size c).1.Nodup ∧
      (∀ e ∈ (LRUContainer.evictLoop charge l size c).1, e ∈ l) ∧
      ∀ key e, (LRUContainer.evictLoop charge l size c).2.table.lookup key = some e ↔
        c.table.lookup key = some e ∧ e ∉ (LRUContainer.evictLoop charge l size c).1
  | [], _, c, h, _ => by simp [LRUContainer.evictLoop, h]
  | e :: rest, size, c, h, hl => by
      unfold LRUContainer.evictLoop
      split
      next =>
        have hmem : e ∈ c.lru := by simp [hl]
        obtain ⟨⟨key, hk⟩, _⟩ := (h.idle e).mp hmem
        obtain ⟨hinv, htable⟩ := h.evictOneEntry hk
        have hlru : (c.evictOneEntry e).lru = rest := by
          change c.lru.erase e = rest
          simp [hl]
        have hnodup : (e :: rest).Nodup := hl ▸ h.nodup
        obtain ⟨hinv', hkeys, hnd, hsub, hlookup⟩ :=
          evictLoop charge rest (size + (c.handles e).charge) (c.evictOneEntry e) hinv hlru
        refine ⟨hinv', ?_, ?_, ?_, ?_⟩
        · intro x
          rw [hkeys]
          exact unref_key c e x false
        · exact List.nodup_cons.mpr ⟨fun he => (List.nodup_cons.mp hnodup).1 (hsub e he), hnd⟩
        · intro x hx
          rcases List.mem_cons.mp hx with rfl | hx
          · exact List.mem_cons_self
          · exact List.mem_cons_of_mem _ (hsub x hx)
        · intro key' x
          rw [hlookup, htable, List.mem_cons, not_or]
          by_cases heq : key' = key
          · subst heq
            simp only [AList.lookup_erase, reduceCtorEq, false_and, false_iff, not_and]
            intro hx hne
            rw [hk] at hx
            exact absurd (Option.some.inj hx).symm hne
          · rw [AList.lookup_erase_ne heq]
            constructor
            · rintro ⟨hx, hnot⟩
              refine ⟨hx, ?_, hnot⟩
              rintro rfl
              exact heq (h.key_unique hx hk)
            · rintro ⟨hx, _, hnot⟩
              exact ⟨hx, hnot⟩
      next => exact ⟨h, fun _ => rfl, List.nodup_nil, by simp, by simp⟩

/-- Eviction returns idle keys, each once, and takes exactly these out. -/
theorem evict (h : c.Inv out) (charge : Nat) :
    (c.evict charge).2.Inv out ∧ (c.evict charge).1.Nodup ∧
      (∀ key ∈ (c.evict charge).1, c.Idle key) ∧
      ∀ key e, (c.evict charge).2.table.lookup key = some e ↔
        c.table.lookup key = some e ∧ key ∉ (c.evict charge).1 := by
  obtain ⟨hinv, hkeys, hnd, hsub, hlookup⟩ := evictLoop charge c.lru 0 c h rfl
  -- the evicted handles and their keys determine one another
  have hkey : ∀ e ∈ (LRUContainer.evictLoop charge c.lru 0 c).1,
      c.table.lookup ((LRUContainer.evictLoop charge c.lru 0 c).2.handles e).key = some e := by
    intro e he
    obtain ⟨⟨key, hk⟩, _⟩ := (h.idle e).mp (hsub e he)
    rw [hkeys, (h.entry key e hk).1, hk]
  unfold LRUContainer.evict
  dsimp only
  refine ⟨hinv, ?_, ?_, ?_⟩
  · refine hnd.map_on fun x hx y hy heq => ?_
    have := hkey x hx
    rw [heq, hkey y hy] at this
    exact (Option.some.inj this).symm
  · intro key hmem
    obtain ⟨e, he, rfl⟩ := List.mem_map.mp hmem
    exact ⟨e, hkey e he, hsub e he⟩
  · intro key e
    rw [hlookup]
    refine and_congr_right fun hk => not_congr ?_
    rw [List.mem_map]
    constructor
    · intro he
      exact ⟨e, he, by rw [hkeys, (h.entry key e hk).1]⟩
    · rintro ⟨x, hx, rfl⟩
      have := hkey x hx
      rw [hk] at this
      cases this
      exact hx

theorem evict_tracked (h : c.Inv out) (charge : Nat) (key : K) :
    (c.evict charge).2.Tracked key ↔ c.Tracked key ∧ key ∉ (c.evict charge).1 := by
  obtain ⟨_, _, _, hlookup⟩ := h.evict charge
  rw [tracked_iff, tracked_iff]
  simp only [hlookup, exists_and_right]

theorem evict_idle (h : c.Inv out) (charge : Nat) (key : K) :
    (c.evict charge).2.Idle key ↔ c.Idle key ∧ key ∉ (c.evict charge).1 := by
  obtain ⟨hinv, _, _, hlookup⟩ := h.evict charge
  constructor
  · rintro ⟨e, hk, hmem⟩
    have hk' := (hlookup key e).mp hk
    exact ⟨(h.idle_iff hk'.1).mpr ((hinv.idle e).mp hmem).2, hk'.2⟩
  · rintro ⟨⟨e, hk, hmem⟩, hnot⟩
    have hk' := (hlookup key e).mpr ⟨hk, hnot⟩
    exact (hinv.idle_iff hk').mpr ((h.idle e).mp hmem).2


/-- Insertion followed by giving the handle back at once, as `add` does. -/
theorem insert_release (h : c.Inv out) (key : K) (charge : Nat) :
    ((c.insert key charge).2.release (c.insert key charge).1).Inv out ∧
      ((c.insert key charge).2.release (c.insert key charge).1).table =
        c.table.insert key c.allocated := by
  obtain ⟨he, hinv, htable⟩ := h.insert key charge
  have hrel := hinv.release List.mem_cons_self
  rw [List.erase_cons_head] at hrel
  rw [he]
  exact ⟨hrel.1, hrel.2.trans htable⟩

theorem insert_release_idle (h : c.Inv out) (key : K) (charge : Nat) (key' : K) :
    ((c.insert key charge).2.release (c.insert key charge).1).Idle key' ↔
      key' = key ∨ c.Idle key' := by
  obtain ⟨hinv, htable⟩ := h.insert_release key charge
  have hfresh : c.allocated ∉ out := fun hmem => absurd (h.out_fresh _ hmem) (Nat.lt_irrefl _)
  by_cases heq : key' = key
  · subst heq
    simp only [true_or, iff_true]
    have hk := AList.lookup_insert (a := key') (b := c.allocated) c.table
    rw [← htable] at hk
    exact (hinv.idle_iff hk).mpr hfresh
  · simp only [heq, false_or]
    have hlookup : ((c.insert key charge).2.release (c.insert key charge).1).table.lookup key' =
        c.table.lookup key' := by
      rw [htable, AList.lookup_insert_ne heq]
    constructor
    · rintro ⟨e, hk, hmem⟩
      exact (h.idle_iff (hlookup ▸ hk)).mpr ((hinv.idle e).mp hmem).2
    · rintro ⟨e, hk, hmem⟩
      exact (hinv.idle_iff (hlookup.trans hk)).mpr ((h.idle e).mp hmem).2

end Inv

/-- The empty container. -/
theorem inv_default [Inhabited K] : (default : LRUContainer K).Inv [] := by
  refine ⟨?_, by simp, ?_, ?_, List.nodup_nil, ?_⟩
  · intro key e he
    simp [default] at he
  · intro key e he
    simp [default] at he
  · intro e he
    exact absurd he (Nat.not_lt_zero e)
  · intro e
    simp [default]

end LRUContainer
end StarCache
