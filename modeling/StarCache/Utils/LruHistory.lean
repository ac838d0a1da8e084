import StarCache.Utils.LruContainer
import Mathlib.Algebra.Order.BigOperators.Group.Finset
import Mathlib.Logic.Relation

/-!
# Histories of an LRU container

A history keeps, beside the container, the handles that callers hold, the entries
that an eviction has returned and its receiver has not freed yet, the entries that
have been freed, and the order of the releases.
-/

namespace StarCache

namespace LRUContainer

variable {K : Type} [DecidableEq K]

/-- The entries that a call passes to `free`. -/
def releaseFrees (c : LRUContainer K) (e : Nat) : List Nat :=
  if (c.handles e).refs - 1 = 0 then [e] else []

/-- An older entry of the key is freed by `insert` and by `erase` alike. -/
def replaceFrees (c : LRUContainer K) (key : K) : List Nat :=
  match c.table.lookup key with
  | none => []
  | some old => c.releaseFrees old

/-- `prune` takes every idle entry out and frees it. -/
def prune (c : LRUContainer K) : List Nat × LRUContainer K :=
  (c.lru, c.lru.foldl evictOneEntry c)

/-! ## Usage -/

/-- What an entry counts for: its charge, until its last reference is gone. -/
def weight (h : LRUHandle K) : Nat := if h.refs = 0 then 0 else h.charge

/-- The charges of all entries that have references. -/
def totalWeight (c : LRUContainer K) : Nat := ∑ e ∈ Finset.range c.allocated, weight (c.handles e)

omit [DecidableEq K] in
theorem sum_update (handles : Nat → LRUHandle K) (h : LRUHandle K) {e n : Nat} (he : e < n) :
    (∑ x ∈ Finset.range n, weight (Function.update handles e h x)) + weight (handles e) =
      (∑ x ∈ Finset.range n, weight (handles x)) + weight h := by
  have hmem : e ∈ Finset.range n := Finset.mem_range.mpr he
  rw [← Finset.add_sum_erase _ _ hmem, ← Finset.add_sum_erase _ (fun x => weight (handles x)) hmem,
    Function.update_self]
  have hrest : ∑ x ∈ (Finset.range n).erase e, weight (Function.update handles e h x) =
      ∑ x ∈ (Finset.range n).erase e, weight (handles x) := by
    refine Finset.sum_congr rfl fun x hx => ?_
    rw [Function.update_of_ne (Finset.ne_of_mem_erase hx)]
  rw [hrest]
  omega

omit [DecidableEq K] in
/-- Dropping a reference frees the charge when it was the last one. -/
theorem unref_weight (c : LRUContainer K) {e : Nat} (he : e < c.allocated) (v : Bool)
    (hrefs : 0 < (c.handles e).refs) :
    (if (c.handles e).refs - 1 = 0 then c.totalWeight - (c.handles e).charge else c.totalWeight) =
        (c.unref e v).totalWeight ∧
      (c.handles e).charge ≤ c.totalWeight := by
  have hsum := sum_update c.handles
    { c.handles e with refs := (c.handles e).refs - 1, valid := v } he
  have hle : weight (c.handles e) ≤ c.totalWeight :=
    Finset.single_le_sum (f := fun x => weight (c.handles x)) (fun _ _ => Nat.zero_le _)
      (Finset.mem_range.mpr he)
  have hw : weight (c.handles e) = (c.handles e).charge := by
    unfold weight
    rw [if_neg (by omega)]
  refine ⟨?_, hw ▸ hle⟩
  unfold totalWeight unref at *
  dsimp only
  unfold weight at hsum ⊢
  dsimp only at hsum
  split
  next hlast =>
    rw [if_pos hlast, if_neg (by omega)] at hsum
    omega
  next hmore =>
    rw [if_neg hmore, if_neg (by omega)] at hsum
    omega

/-! ## Entries that are gone -/

variable {c c' : LRUContainer K} {out gone : List Nat} {e : Nat}

/-- The usage counts the entries that have references; those that have none are `gone`, each
once. -/
structure Accounted (c : LRUContainer K) (gone : List Nat) : Prop where
  usage : c.usage = c.totalWeight
  nodup : gone.Nodup
  mem_gone : ∀ e, e ∈ gone ↔ e < c.allocated ∧ (c.handles e).refs = 0

omit [DecidableEq K] in
theorem Accounted.perm {gone' : List Nat} (h : c.Accounted gone) (hperm : gone.Perm gone') :
    c.Accounted gone' :=
  ⟨h.usage, hperm.nodup_iff.mp h.nodup, fun e => by rw [← hperm.mem_iff, h.mem_gone]⟩

omit [DecidableEq K] in
/-- One reference is dropped, and the usage changes with it. -/
theorem Accounted.unref (h : c.Accounted gone) (he : e < c.allocated)
    (hrefs : 0 < (c.handles e).refs) {v : Bool} (hhandles : c'.handles = (c.unref e v).handles)
    (hallocated : c'.allocated = c.allocated)
    (husage : c'.usage =
      if (c.handles e).refs - 1 = 0 then c.usage - (c.handles e).charge else c.usage) :
    c'.Accounted (c.releaseFrees e ++ gone) := by
  have hnot : e ∉ gone := fun hmem => by
    have := ((h.mem_gone e).mp hmem).2
    omega
  refine ⟨?_, ?_, fun x => ?_⟩
  · rw [husage, h.usage, (unref_weight c he v hrefs).1]
    unfold totalWeight
    rw [hhandles, hallocated]
    rfl
  · unfold releaseFrees
    split
    · exact List.nodup_cons.mpr ⟨hnot, h.nodup⟩
    · exact h.nodup
  · rw [List.mem_append, h.mem_gone, hhandles, hallocated, unref_handles]
    unfold releaseFrees
    by_cases hx : x = e
    · subst hx
      rw [if_pos rfl]
      dsimp only
      split
      next hlast => simp [he, hlast]
      next hmore => simp [hmore, Nat.pos_iff_ne_zero.mp hrefs]
    · rw [if_neg hx]
      split <;> simp [hx]

/-- An entry that the container or a caller refers to has references. -/
theorem Inv.refs_pos (h : c.Inv out) {key : K} (hk : c.table.lookup key = some e) :
    e < c.allocated ∧ 0 < (c.handles e).refs := by
  refine ⟨h.fresh key e hk, ?_⟩
  rw [(h.entry key e hk).2.2]
  omega

theorem Inv.held_refs_pos (h : c.Inv out) (he : e ∈ out) :
    e < c.allocated ∧ 0 < (c.handles e).refs := by
  have hcount := List.count_pos_iff.mpr he
  refine ⟨h.out_fresh e he, ?_⟩
  by_cases hk : ∃ key, c.table.lookup key = some e
  · obtain ⟨key, hk⟩ := hk
    exact (h.refs_pos hk).2
  · push Not at hk
    rw [(h.stale e (h.out_fresh e he) hk).2]
    exact hcount

theorem Accounted.release (h : c.Accounted gone) (hinv : c.Inv out) (he : e ∈ out) :
    (c.release e).Accounted (c.releaseFrees e ++ gone) := by
  obtain ⟨hlt, hrefs⟩ := hinv.held_refs_pos he
  refine h.unref (v := (c.handles e).valid) hlt hrefs ?_ ?_ ?_
  all_goals
    unfold LRUContainer.release
    dsimp only
    split
    next => rfl
    next => split <;> rfl

theorem Accounted.erase (h : c.Accounted gone) (hinv : c.Inv out) (key : K) :
    (c.erase key).Accounted (c.replaceFrees key ++ gone) := by
  unfold LRUContainer.erase replaceFrees
  cases hk : c.table.lookup key with
  | none => exact h
  | some old =>
      obtain ⟨hlt, hrefs⟩ := hinv.refs_pos hk
      refine h.unref (v := false) hlt hrefs ?_ ?_ ?_
      all_goals
        dsimp only
        split <;> rfl

theorem Accounted.evictOneEntry (h : c.Accounted gone) (hinv : c.Inv out) (he : e ∈ c.lru) :
    (c.evictOneEntry e).Accounted (e :: gone) := by
  obtain ⟨⟨key, hk⟩, hout⟩ := (hinv.idle e).mp he
  obtain ⟨hlt, hrefs⟩ := hinv.refs_pos hk
  have hone : (c.handles e).refs = 1 := by
    rw [(hinv.entry key e hk).2.2, List.count_eq_zero.mpr hout]
  have hlast : (c.handles e).refs - 1 = 0 := by omega
  have hdrop : (c.evictOneEntry e).Accounted (c.releaseFrees e ++ gone) :=
    h.unref (v := false) hlt hrefs rfl rfl (by rw [if_pos hlast]; rfl)
  unfold releaseFrees at hdrop
  rwa [if_pos hlast] at hdrop

theorem Accounted.lookup (h : c.Accounted gone) (hinv : c.Inv out) (key : K) :
    (c.lookup key).2.Accounted gone := by
  unfold LRUContainer.lookup
  dsimp only
  cases hk : c.table.lookup key with
  | none => exact ⟨h.usage, h.nodup, h.mem_gone⟩
  | some e =>
      obtain ⟨hlt, hrefs⟩ := hinv.refs_pos hk
      refine ⟨?_, h.nodup, fun x => ?_⟩
      · have hsum := sum_update c.handles
          { c.handles e with refs := (c.handles e).refs + 1 } hlt
        unfold weight at hsum
        dsimp only at hsum
        rw [if_neg (by omega : ¬ (c.handles e).refs = 0),
          if_neg (by omega : ¬ (c.handles e).refs + 1 = 0)] at hsum
        have husage := h.usage
        unfold totalWeight weight at *
        dsimp only
        omega
      · rw [h.mem_gone]
        dsimp only
        rw [Function.update_apply]
        split
        next hx =>
          subst hx
          dsimp only
          omega
        next => rfl

theorem Accounted.insert (h : c.Accounted gone) (hinv : c.Inv out) (key : K) (charge : Nat) :
    (c.insert key charge).2.Accounted (c.replaceFrees key ++ gone) := by
  -- the container with the new entry, before an older one is given up
  let fresh : LRUContainer K := { c with
    handles := Function.update c.handles c.allocated ⟨key, charge, true, 2⟩
    allocated := c.allocated + 1
    table := c.table.insert key c.allocated
    usage := c.usage + charge }
  have hhandles : ∀ x < c.allocated, fresh.handles x = c.handles x := fun x hx =>
    Function.update_of_ne (Nat.ne_of_lt hx) ..
  have hfresh : fresh.Accounted gone := by
    refine ⟨?_, h.nodup, fun x => ?_⟩
    · change c.usage + charge = ∑ x ∈ Finset.range (c.allocated + 1), weight (fresh.handles x)
      rw [Finset.sum_range_succ, h.usage]
      congr 1
      · exact Finset.sum_congr rfl fun x hx => by rw [hhandles x (Finset.mem_range.mp hx)]
      · change charge = weight (Function.update c.handles c.allocated ⟨key, charge, true, 2⟩ c.allocated)
        rw [Function.update_self]
        rfl
    · rw [h.mem_gone]
      change _ ↔ x < c.allocated + 1 ∧ _
      by_cases hx : x < c.allocated
      · rw [hhandles x hx]
        simp [hx, Nat.lt_succ_of_lt hx]
      · have hnew : x < c.allocated + 1 → x = c.allocated := by omega
        refine ⟨fun hlt => absurd hlt.1 hx, fun ⟨hlt, hrefs⟩ => ?_⟩
        rw [hnew hlt] at hrefs
        change (Function.update c.handles c.allocated ⟨key, charge, true, 2⟩ c.allocated).refs = 0 at hrefs
        rw [Function.update_self] at hrefs
        cases hrefs
  unfold LRUContainer.insert replaceFrees
  dsimp only
  cases hk : c.table.lookup key with
  | none => exact hfresh
  | some old =>
      obtain ⟨hlt, hrefs⟩ := hinv.refs_pos hk
      have hold := hhandles old hlt
      have hdrop : LRUContainer.Accounted
          { fresh.unref old false with
            usage := if (c.handles old).refs - 1 = 0 then fresh.usage - (c.handles old).charge
              else fresh.usage
            lru := if (c.handles old).refs - 1 = 0 then c.lru.erase old else c.lru }
          (fresh.releaseFrees old ++ gone) :=
        hfresh.unref (v := false) (Nat.lt_succ_of_lt hlt) (by rw [hold]; exact hrefs) rfl rfl
          (by rw [hold])
      unfold releaseFrees at hdrop ⊢
      rw [hold] at hdrop
      dsimp only
      split
      next hlast =>
        simp only [hlast, if_true] at hdrop
        exact hdrop
      next hmore =>
        simp only [hmore, if_false] at hdrop
        exact hdrop

/-! ## Eviction -/

/-- The charges of a list of entries. -/
def charges (c : LRUContainer K) (es : List Nat) : Nat := (es.map fun e => (c.handles e).charge).sum

/-- What an eviction takes from the idle list: a prefix that is as long as it must be. -/
structure Shortest (c : LRUContainer K) (charge size n : Nat) (idle : List Nat) : Prop where
  le : n ≤ idle.length
  short : ∀ m < n, size + c.charges (idle.take m) < charge
  enough : charge ≤ size + c.charges (idle.take n) ∨ n = idle.length

/-- The container after an eviction has taken the entries `es`. -/
structure Evicted (c : LRUContainer K) (es : List Nat) (c' : LRUContainer K) : Prop where
  usage : c'.usage + c.charges es = c.usage
  table : ∀ key e, c'.table.lookup key = some e ↔ c.table.lookup key = some e ∧ e ∉ es
  handles : ∀ e ∉ es, c'.handles e = c.handles e
  allocated : c'.allocated = c.allocated

theorem evictLoop_shortest (charge : Nat) : ∀ (idle : List Nat) (size : Nat) {c : LRUContainer K}
    {gone : List Nat}, c.Inv out → c.Accounted gone → c.lru = idle →
    ∃ n, (evictLoop charge idle size c).1 = idle.take n ∧
      (evictLoop charge idle size c).2.lru = idle.drop n ∧ c.Shortest charge size n idle ∧
      c.Evicted (idle.take n) (evictLoop charge idle size c).2 ∧
      (evictLoop charge idle size c).2.Accounted ((idle.take n).reverse ++ gone)
  | [], size, c, gone, hinv, hacc, hlru => by
      unfold evictLoop
      refine ⟨0, rfl, hlru, ⟨Nat.le_refl _, (fun _ h => by cases h), Or.inr rfl⟩, ⟨rfl, by simp, fun _ _ => rfl, rfl⟩,
        hacc⟩
  | e :: rest, size, c, gone, hinv, hacc, hlru => by
      unfold evictLoop
      split
      next hless =>
        dsimp only
        have he : e ∈ c.lru := hlru ▸ List.mem_cons_self
        obtain ⟨⟨key, hk⟩, _⟩ := (hinv.idle e).mp he
        obtain ⟨hinv', htable⟩ := hinv.evictOneEntry hk
        have hacc' := hacc.evictOneEntry hinv he
        have hlru' : (c.evictOneEntry e).lru = rest := by
          change c.lru.erase e = rest
          rw [hlru, List.erase_cons_head]
        have hnot : e ∉ rest := (List.nodup_cons.mp (hlru ▸ hinv.nodup)).1
        obtain ⟨n, htake, hdrop, hshort, hevicted, haccn⟩ :=
          evictLoop_shortest charge rest (size + (c.handles e).charge) hinv' hacc' hlru'
        -- the charges of the others are unchanged
        have hsame : ∀ es, (∀ x ∈ es, x ≠ e) → (c.evictOneEntry e).charges es = c.charges es := by
          intro es hes
          unfold charges
          congr 1
          refine List.map_congr_left fun x hx => ?_
          change ((c.unref e false).handles x).charge = _
          rw [unref_handles, if_neg (hes x hx)]
        have hrest : ∀ m, ∀ x ∈ rest.take m, x ≠ e := fun m x hx heq =>
          hnot (heq ▸ List.mem_of_mem_take hx)
        have hcons : ∀ m, c.charges (e :: rest.take m) =
            (c.handles e).charge + c.charges (rest.take m) := fun m => by
          unfold charges
          rw [List.map_cons, List.sum_cons]
        have hcharge : (c.handles e).charge ≤ c.usage := by
          rw [hacc.usage]
          obtain ⟨hlt, hrefs⟩ := hinv.refs_pos hk
          exact (unref_weight c hlt false hrefs).2
        refine ⟨n + 1, ?_, ?_, ⟨?_, fun m hm => ?_, ?_⟩, ⟨?_, fun key' x => ?_, fun x hx => ?_, ?_⟩,
          ?_⟩
        · rw [htake]
          rfl
        · rw [hdrop]
          rfl
        · exact Nat.succ_le_succ hshort.le
        · cases m with
          | zero =>
              rw [List.take_zero]
              exact hless
          | succ m =>
              have := hshort.short m (Nat.lt_of_succ_lt_succ hm)
              rw [hsame _ (hrest m)] at this
              rw [List.take_succ_cons, hcons, ← Nat.add_assoc]
              exact this
        · refine hshort.enough.imp (fun h => ?_) fun h => by rw [h, List.length_cons]
          rw [hsame _ (hrest n)] at h
          rw [List.take_succ_cons, hcons, ← Nat.add_assoc]
          exact h
        · have husage := hevicted.usage
          rw [hsame _ (hrest n)] at husage
          change _ = c.usage - (c.handles e).charge at husage
          rw [List.take_succ_cons, hcons]
          omega
        · rw [hevicted.table, htable, List.take_succ_cons, List.mem_cons, not_or]
          by_cases heq : key' = key
          · subst heq
            simp only [AList.lookup_erase, reduceCtorEq, false_and, false_iff, not_and]
            intro hx hne
            rw [hk] at hx
            exact absurd (Option.some.inj hx).symm hne
          · rw [AList.lookup_erase_ne heq]
            refine and_congr_right fun hx => ⟨fun h => ⟨?_, h⟩, And.right⟩
            rintro rfl
            exact heq (hinv.key_unique hx hk)
        · rw [List.take_succ_cons, List.mem_cons, not_or] at hx
          rw [hevicted.handles x hx.2]
          change (c.unref e false).handles x = _
          rw [unref_handles, if_neg hx.1]
        · rw [hevicted.allocated]
          rfl
        · rw [List.take_succ_cons, List.reverse_cons, List.append_assoc, List.singleton_append]
          exact haccn
      next henough =>
        refine ⟨0, rfl, hlru, ⟨Nat.zero_le _, (fun _ h => by cases h), Or.inl (Nat.not_lt.mp henough)⟩,
          ⟨rfl, by simp, fun _ _ => rfl, rfl⟩, hacc⟩

/-- `prune` is an eviction that never has enough. -/
theorem prune_accounted : ∀ (idle : List Nat) {c : LRUContainer K} {gone : List Nat}, c.Inv out →
    c.Accounted gone → c.lru = idle →
    (idle.foldl evictOneEntry c).Inv out ∧ (idle.foldl evictOneEntry c).lru = [] ∧
      (idle.foldl evictOneEntry c).Accounted (idle.reverse ++ gone)
  | [], c, gone, hinv, hacc, hlru => ⟨hinv, hlru, hacc⟩
  | e :: rest, c, gone, hinv, hacc, hlru => by
      have he : e ∈ c.lru := hlru ▸ List.mem_cons_self
      obtain ⟨⟨key, hk⟩, _⟩ := (hinv.idle e).mp he
      have hlru' : (c.evictOneEntry e).lru = rest := by
        change c.lru.erase e = rest
        rw [hlru, List.erase_cons_head]
      rw [List.foldl_cons, List.reverse_cons, List.append_assoc, List.singleton_append]
      exact prune_accounted rest (hinv.evictOneEntry hk).1 (hacc.evictOneEntry hinv he) hlru'

/-! ## The order of releases -/

/-- The entries of a log, latest first, in the order of their last mention, oldest first. -/
def lastOrder : List Nat → List Nat
  | [] => []
  | e :: log => (lastOrder log).filter (· ≠ e) ++ [e]

/-- The list is the part of `order` that it has in common with it. -/
def Follows (lru order : List Nat) : Prop := lru = order.filter (· ∈ lru)

theorem Follows.filter {lru order : List Nat} (h : Follows lru order) (p : Nat → Bool) :
    Follows (lru.filter p) order := by
  unfold Follows at h ⊢
  have hboth : order.filter (· ∈ lru.filter p) = (order.filter (· ∈ lru)).filter p := by
    rw [List.filter_filter]
    refine List.filter_congr fun x _ => ?_
    simp [List.mem_filter, and_comm]
  rw [hboth, ← h]

theorem Follows.erase {lru order : List Nat} (h : Follows lru order) (hnodup : lru.Nodup)
    (e : Nat) : Follows (lru.erase e) order := by
  rw [hnodup.erase_eq_filter]
  exact h.filter _

theorem Follows.drop {lru order : List Nat} (h : Follows lru order) (hnodup : lru.Nodup)
    (n : Nat) : Follows (lru.drop n) order := by
  have heq : lru.drop n = lru.filter (· ∉ lru.take n) := by
    conv_rhs => rw [← List.take_append_drop n lru, List.filter_append]
    have hsplit := hnodup
    rw [← List.take_append_drop n lru, List.nodup_append] at hsplit
    have htake : (lru.take n).filter (· ∉ (lru.take n ++ lru.drop n).take n) = [] := by
      rw [List.take_append_drop]
      refine List.filter_eq_nil_iff.mpr fun x hx => ?_
      simpa using hx
    have hdrop : (lru.drop n).filter (· ∉ (lru.take n ++ lru.drop n).take n) = lru.drop n := by
      rw [List.take_append_drop]
      refine List.filter_eq_self.mpr fun x hx => ?_
      simp only [decide_eq_true_eq]
      exact fun hmem => hsplit.2.2 x hmem x hx rfl
    rw [htake, hdrop, List.nil_append]
  rw [heq]
  exact h.filter _

/-- A release that leaves its entry off the list. -/
theorem Follows.mention {lru log : List Nat} {e : Nat} (h : Follows lru (lastOrder log))
    (he : e ∉ lru) : Follows lru (lastOrder (e :: log)) := by
  unfold Follows at h ⊢
  have hsame : (lastOrder (e :: log)).filter (· ∈ lru) = (lastOrder log).filter (· ∈ lru) := by
    change ((lastOrder log).filter (· ≠ e) ++ [e]).filter (· ∈ lru) = _
    rw [List.filter_append, List.filter_filter]
    have hself : [e].filter (· ∈ lru) = [] := by simp [he]
    rw [hself, List.append_nil]
    refine List.filter_congr fun x _ => ?_
    by_cases hx : x = e
    · subst hx
      simp [he]
    · simp [hx]
  rw [hsame]
  exact h

/-- A release that puts its entry at the end of the list. -/
theorem Follows.append {lru log : List Nat} {e : Nat} (h : Follows lru (lastOrder log))
    (he : e ∉ lru) : Follows (lru ++ [e]) (lastOrder (e :: log)) := by
  unfold Follows at h ⊢
  have hsame : ((lastOrder log).filter (· ≠ e)).filter (· ∈ lru ++ [e]) =
      (lastOrder log).filter (· ∈ lru) := by
    rw [List.filter_filter]
    refine List.filter_congr fun x _ => ?_
    by_cases hx : x = e
    · subst hx
      simp [he]
    · simp [hx]
  unfold lastOrder
  rw [List.filter_append, hsame, ← h]
  simp

/-! ## Histories -/

end LRUContainer

structure History (K : Type) where
  container : LRUContainer K
  /-- The handles that callers hold, with multiplicity. -/
  out : List Nat
  /-- Returned by an eviction and not freed yet. -/
  evicted : List Nat
  freed : List Nat
  /-- The handles that have been released, latest first. -/
  released : List Nat

namespace History

open LRUContainer

variable {K : Type} [DecidableEq K]

/-- One call. A handle is released as often as it was handed out, and the receiver of an
eviction frees what it got. -/
inductive Next : History K → History K → Prop
  | insert (h : History K) (key : K) (charge : Nat) :
      Next h { h with
        container := (h.container.insert key charge).2
        out := (h.container.insert key charge).1 :: h.out
        freed := h.container.replaceFrees key ++ h.freed }
  | lookup (h : History K) (key : K) :
      Next h { h with
        container := (h.container.lookup key).2
        out := (h.container.lookup key).1.toList ++ h.out }
  | release (h : History K) (e : Nat) (held : e ∈ h.out) :
      Next h { h with
        container := h.container.release e
        out := h.out.erase e
        freed := h.container.releaseFrees e ++ h.freed
        released := e :: h.released }
  | erase (h : History K) (key : K) :
      Next h { h with
        container := h.container.erase key
        freed := h.container.replaceFrees key ++ h.freed }
  | evict (h : History K) (charge : Nat) :
      Next h { h with
        container := (evictLoop charge h.container.lru 0 h.container).2
        evicted := (evictLoop charge h.container.lru 0 h.container).1 ++ h.evicted }
  | free (h : History K) (e : Nat) (mine : e ∈ h.evicted) :
      Next h { h with
        evicted := h.evicted.erase e
        freed := e :: h.freed }
  | prune (h : History K) :
      Next h { h with
        container := h.container.prune.2
        freed := h.container.prune.1 ++ h.freed }

structure Inv (h : History K) : Prop where
  container : h.container.Inv h.out
  accounted : h.container.Accounted (h.evicted ++ h.freed)
  follows : Follows h.container.lru (lastOrder h.released)

theorem Next.inv {h h' : History K} (hstep : Next h h') (hinv : h.Inv) : h'.Inv := by
  obtain ⟨hc, hacc, hfollows⟩ := hinv
  -- what is freed goes to the front of the freed ones
  have hfree : ∀ {c : LRUContainer K} {frees : List Nat},
      c.Accounted (frees ++ (h.evicted ++ h.freed)) →
        c.Accounted (h.evicted ++ (frees ++ h.freed)) := by
    intro c frees hc
    refine hc.perm ?_
    rw [← List.append_assoc, ← List.append_assoc]
    exact List.perm_append_comm.append_right _
  cases hstep with
  | insert key charge =>
      obtain ⟨hentry, hc', _⟩ := hc.insert key charge
      refine ⟨by rw [hentry]; exact hc', hfree (hacc.insert hc key charge), ?_⟩
      dsimp only
      unfold LRUContainer.insert
      dsimp only
      cases h.container.table.lookup key with
      | none => exact hfollows
      | some old =>
          dsimp only
          split
          next => exact hfollows.erase hc.nodup old
          next => exact hfollows
  | lookup key =>
      refine ⟨?_, hacc.lookup hc key, ?_⟩
      · cases hr : (h.container.lookup key).1 with
        | none => exact (hc.lookup_none hr).2.1
        | some e => exact (hc.lookup_some hr).2.1
      · dsimp only
        unfold LRUContainer.lookup
        dsimp only
        cases h.container.table.lookup key with
        | none => exact hfollows
        | some e =>
            dsimp only
            split
            next => exact hfollows.erase hc.nodup e
            next => exact hfollows
  | release e held =>
      have hnot : e ∉ h.container.lru := fun hmem => ((hc.idle e).mp hmem).2 held
      refine ⟨(hc.release held).1, hfree (hacc.release hc held), ?_⟩
      dsimp only
      unfold LRUContainer.release
      dsimp only
      split
      next => exact hfollows.mention hnot
      next =>
        split
        next => exact hfollows.append hnot
        next => exact hfollows.mention hnot
  | erase key =>
      refine ⟨(hc.erase key).1, hfree (hacc.erase hc key), ?_⟩
      dsimp only
      unfold LRUContainer.erase
      cases h.container.table.lookup key with
      | none => exact hfollows
      | some e =>
          dsimp only
          split
          next =>
            dsimp only
            split
            next => exact hfollows.erase hc.nodup e
            next => exact hfollows
          next => exact hfollows
  | evict charge =>
      obtain ⟨n, htake, hdrop, _, _, hacc'⟩ := evictLoop_shortest charge _ 0 hc hacc rfl
      refine ⟨(LRUContainer.Inv.evictLoop charge _ 0 _ hc rfl).1, ?_, ?_⟩
      · dsimp only
        rw [htake, List.append_assoc]
        exact hacc'.perm ((List.reverse_perm _).append_right _)
      · dsimp only
        rw [hdrop]
        exact hfollows.drop hc.nodup n
  | free e mine =>
      refine ⟨hc, hacc.perm ?_, hfollows⟩
      exact ((List.perm_cons_erase mine).append_right _).trans List.perm_middle.symm
  | prune =>
      obtain ⟨hc', hlru, hacc'⟩ := prune_accounted _ hc hacc rfl
      refine ⟨hc', hfree (hacc'.perm ((List.reverse_perm _).append_right _)), ?_⟩
      unfold LRUContainer.prune
      dsimp only
      rw [hlru]
      unfold Follows
      simp

/-! ## The container -/

/-- The entry is in the table. -/
def InTable (h : History K) (e : Nat) : Prop := ∃ key, h.container.table.lookup key = some e

/-- The evictions of the handles `es` allocate nothing and leave only old entries. -/
theorem foldl_evictOneEntry_table {e : Nat} (es : List Nat) {c : LRUContainer K}
    (he : e < c.allocated) :
    e < (es.foldl evictOneEntry c).allocated ∧
      ∀ key, (es.foldl evictOneEntry c).table.lookup key = some e → c.table.lookup key = some e := by
  induction es generalizing c with
  | nil => exact ⟨he, fun _ hk => hk⟩
  | cons x rest ih =>
      obtain ⟨hlt, htable⟩ := @ih (c.evictOneEntry x) he
      refine ⟨hlt, fun key hk => ?_⟩
      have hone : (c.table.erase (c.handles x).key).lookup key = some e := htable key hk
      by_cases heq : key = (c.handles x).key
      · subst heq
        rw [AList.lookup_erase] at hone
        cases hone
      · rwa [AList.lookup_erase_ne heq] at hone

/-- Only an insertion adds to the table, and what it adds is new. -/
theorem Next.inTable {h h' : History K} (hstep : Next h h') (hinv : h.Inv) {e : Nat}
    (he : e < h.container.allocated) :
    e < h'.container.allocated ∧ (h'.InTable e → h.InTable e) := by
  have hc := hinv.container
  cases hstep with
  | insert key charge =>
      obtain ⟨_, hc', htable⟩ := hc.insert key charge
      refine ⟨?_, fun ⟨key', hk⟩ => ?_⟩
      · have := hc'.out_fresh _ List.mem_cons_self
        exact Nat.lt_trans he this
      · dsimp only at hk
        rw [htable] at hk
        by_cases heq : key' = key
        · subst heq
          rw [AList.lookup_insert] at hk
          exact absurd (Option.some.inj hk) (Nat.ne_of_gt he)
        · rw [AList.lookup_insert_ne heq] at hk
          exact ⟨key', hk⟩
  | lookup key =>
      have htable : (h.container.lookup key).2.table = h.container.table := by
        cases hr : (h.container.lookup key).1 with
        | none => exact (hc.lookup_none hr).2.2.1
        | some x => exact (hc.lookup_some hr).2.2
      refine ⟨?_, fun ⟨key', hk⟩ => ⟨key', htable ▸ hk⟩⟩
      unfold LRUContainer.lookup
      dsimp only
      split <;> exact he
  | release x held =>
      refine ⟨?_, fun ⟨key', hk⟩ => ⟨key', (hc.release held).2 ▸ hk⟩⟩
      unfold LRUContainer.release
      dsimp only
      split
      next => exact he
      next => split <;> exact he
  | erase key =>
      refine ⟨?_, fun ⟨key', hk⟩ => ?_⟩
      · unfold LRUContainer.erase
        split
        next => exact he
        next =>
          dsimp only
          split <;> exact he
      · dsimp only at hk
        rw [(hc.erase key).2] at hk
        by_cases heq : key' = key
        · subst heq
          rw [AList.lookup_erase] at hk
          cases hk
        · rw [AList.lookup_erase_ne heq] at hk
          exact ⟨key', hk⟩
  | evict charge =>
      obtain ⟨n, _, _, _, hevicted, _⟩ := evictLoop_shortest charge _ 0 hc hinv.accounted rfl
      refine ⟨?_, fun ⟨key', hk⟩ => ⟨key', ((hevicted.table key' e).mp hk).1⟩⟩
      dsimp only
      rw [hevicted.allocated]
      exact he
  | free => exact ⟨he, id⟩
  | prune =>
      obtain ⟨hlt, hk⟩ := foldl_evictOneEntry_table h.container.lru he
      exact ⟨hlt, fun ⟨key, h⟩ => ⟨key, hk key h⟩⟩

/-- An entry that has left the table stays out of it. -/
theorem Inv.stays_out {h h' : History K} (hinv : h.Inv) (hrun : Relation.ReflTransGen Next h h')
    {e : Nat} (he : e < h.container.allocated) (hout : ¬ h.InTable e) :
    h'.Inv ∧ e < h'.container.allocated ∧ ¬ h'.InTable e := by
  induction hrun with
  | refl => exact ⟨hinv, he, hout⟩
  | tail _ hstep ih =>
      obtain ⟨hinv', hlt, hout'⟩ := ih
      obtain ⟨hlt', htable⟩ := hstep.inTable hinv' hlt
      exact ⟨hstep.inv hinv', hlt', fun h => hout' (htable h)⟩

section Reachable

variable [Inhabited K]

def start : History K := ⟨default, [], [], [], []⟩

/-- The histories that calls can produce. -/
def Reachable (h : History K) : Prop := Relation.ReflTransGen Next start h

theorem inv_start : (start : History K).Inv := by
  refine ⟨inv_default, ⟨rfl, List.nodup_nil, fun e => ?_⟩, rfl⟩
  unfold start
  simp [default]

theorem Reachable.inv {h : History K} (hreach : Reachable h) : h.Inv := by
  induction hreach with
  | refl => exact inv_start
  | tail _ hstep ih => exact hstep.inv ih

/-- What the container records about each entry, and what has become of the entries. -/
structure Exact (h : History K) : Prop where
  linked : h.container.lru.Nodup ∧
    ∀ e, e ∈ h.container.lru ↔ h.InTable e ∧ (h.container.handles e).refs = 1
  table : ∀ key e, h.container.table.lookup key = some e →
    (h.container.handles e).key = key ∧ (h.container.handles e).valid = true ∧
      1 ≤ (h.container.handles e).refs
  unique : ∀ e e', h.InTable e → h.InTable e' →
    (h.container.handles e).key = (h.container.handles e').key → e = e'
  stale : ∀ e < h.container.allocated, ¬ h.InTable e → (h.container.handles e).valid = false
  refs : ∀ e < h.container.allocated, ∃ own, (h.container.handles e).refs = own + h.out.count e ∧
    (own = 1 ∧ h.InTable e ∨ own = 0 ∧ ¬ h.InTable e)
  usage : h.container.usage = ∑ e ∈ (Finset.range h.container.allocated).filter
    (· ∉ h.evicted ++ h.freed), (h.container.handles e).charge
  /-- An entry is freed, or waits for it, once nothing refers to it, and only once. -/
  gone : (h.evicted ++ h.freed).Nodup ∧ ∀ e, e ∈ h.evicted ++ h.freed ↔
    e < h.container.allocated ∧ ¬ h.InTable e ∧ e ∉ h.out
  /-- What has left the table comes neither back to the list nor out of an eviction. -/
  never : ∀ h', Relation.ReflTransGen Next h h' → ∀ e < h.container.allocated, ¬ h.InTable e →
    e ∉ h'.container.lru ∧ ∀ charge, e ∉ (evictLoop charge h'.container.lru 0 h'.container).1

theorem reachable_exact {h : History K} (hreach : Reachable h) : h.Exact := by
  have hinv := hreach.inv
  have hc := hinv.container
  have hacc := hinv.accounted
  have hrefs : ∀ e < h.container.allocated, ∃ own,
      (h.container.handles e).refs = own + h.out.count e ∧
        (own = 1 ∧ h.InTable e ∨ own = 0 ∧ ¬ h.InTable e) := by
    intro e he
    by_cases hin : h.InTable e
    · obtain ⟨key, hk⟩ := hin
      exact ⟨1, (hc.entry key e hk).2.2, Or.inl ⟨rfl, key, hk⟩⟩
    · refine ⟨0, ?_, Or.inr ⟨rfl, hin⟩⟩
      rw [(hc.stale e he fun key hk => hin ⟨key, hk⟩).2, Nat.zero_add]
  refine ⟨⟨hc.nodup, fun e => ?_⟩, fun key e hk => ?_, ?_,
    fun e he hin => (hc.stale e he fun key hk => hin ⟨key, hk⟩).1, hrefs, ?_,
    ⟨hacc.nodup, fun e => ?_⟩, fun h' hrun e he hout => ?_⟩
  · rw [hc.idle]
    refine and_congr_right fun ⟨key, hk⟩ => ?_
    rw [(hc.entry key e hk).2.2, ← List.count_eq_zero]
    omega
  · obtain ⟨hkey, hvalid, hcount⟩ := hc.entry key e hk
    exact ⟨hkey, hvalid, by omega⟩
  · rintro e e' ⟨key, hk⟩ ⟨key', hk'⟩ heq
    rw [(hc.entry key e hk).1, (hc.entry key' e' hk').1] at heq
    subst heq
    exact Option.some.inj (hk.symm.trans hk')
  · rw [hacc.usage]
    unfold totalWeight
    rw [Finset.sum_filter]
    refine Finset.sum_congr rfl fun e he => ?_
    have hgone : e ∈ h.evicted ++ h.freed ↔ (h.container.handles e).refs = 0 := by
      rw [hacc.mem_gone, and_iff_right (Finset.mem_range.mp he)]
    unfold weight
    by_cases hzero : (h.container.handles e).refs = 0
    · rw [if_pos hzero, if_neg (not_not.mpr (hgone.mpr hzero))]
    · rw [if_neg hzero, if_pos fun hmem => hzero (hgone.mp hmem)]
  · rw [hacc.mem_gone]
    refine and_congr_right fun he => ?_
    obtain ⟨own, hown, hcase⟩ := hrefs e he
    rw [hown, ← List.count_eq_zero]
    rcases hcase with ⟨rfl, hin⟩ | ⟨rfl, hin⟩
    · simp [hin]
    · simp [hin]
  · obtain ⟨hinv', _, hout'⟩ := hinv.stays_out hrun he hout
    have hlru : e ∉ h'.container.lru := fun hmem =>
      hout' ((hinv'.container.idle e).mp hmem).1
    refine ⟨hlru, fun charge hmem => hlru ?_⟩
    exact (LRUContainer.Inv.evictLoop charge _ 0 _ hinv'.container rfl).2.2.2.1 e hmem

/-- A key is replaced while its handle is out; then both handles come back. -/
theorem reachable_exact_replaced :
    ∃ h : History Nat, Reachable h ∧ h.released = [0, 1] ∧ h.freed = [0] ∧
      (∀ e, e ∈ h.container.lru ↔ h.InTable e ∧ (h.container.handles e).refs = 1) := by
  have hfirst : @Reachable Nat _ _ _ := .tail .refl (.insert _ 7 1)
  have hsecond := hfirst.tail (.insert _ 7 2)
  have hback := hsecond.tail (.release _ 1 (by decide))
  have hlast := hback.tail (.release _ 0 (by decide))
  exact ⟨_, hlast, by decide, by decide, (reachable_exact hlast).linked.2⟩

/-! ## What an eviction returns -/

/-- The idle entries in the order in which they became idle. -/
def idle (h : History K) : List Nat := (lastOrder h.released).filter (· ∈ h.container.lru)

/-- An eviction returns the shortest sufficient prefix of the idle entries, least recently
released first, takes these out, and leaves the rest as it was. -/
theorem evict_shortest {h : History K} (hreach : Reachable h) (charge : Nat) :
    (∀ e, e ∈ h.idle ↔ h.InTable e ∧ e ∉ h.out) ∧
      ∃ n, (evictLoop charge h.container.lru 0 h.container).1 = h.idle.take n ∧
        h.container.Shortest charge 0 n h.idle ∧
        h.container.Evicted (h.idle.take n) (evictLoop charge h.container.lru 0 h.container).2 ∧
        (evictLoop charge h.container.lru 0 h.container).2.lru = h.idle.drop n ∧
        (∀ e ∈ h.out, e ∉ h.idle.take n) ∧
        (∀ a b, [a, b].Sublist h.idle → b ∈ h.idle.take n → a ∈ h.idle.take n) ∧
        ∀ e ∈ h.out, e ∈ (h.container.release e).lru →
          (h.container.release e).lru = h.idle ++ [e] := by
  have hinv := hreach.inv
  have hc := hinv.container
  have hidle : h.idle = h.container.lru := hinv.follows.symm
  rw [hidle]
  refine ⟨hc.idle, ?_⟩
  obtain ⟨n, htake, hdrop, hshort, hevicted, _⟩ :=
    evictLoop_shortest charge _ 0 hc hinv.accounted rfl
  refine ⟨n, htake, hshort, hevicted, hdrop, fun e he hmem => ?_, fun a b hsub hb => ?_,
    fun e he hmem => ?_⟩
  · exact ((hc.idle e).mp (List.mem_of_mem_take hmem)).2 he
  · -- one of the two comes from each side of the cut
    rw [← List.take_append_drop n h.container.lru, List.sublist_append_iff] at hsub
    obtain ⟨l₁, l₂, heq, hl₁, hl₂⟩ := hsub
    have hnodup := hc.nodup
    rw [← List.take_append_drop n h.container.lru, List.nodup_append] at hnodup
    cases l₁ with
    | nil =>
        rw [List.nil_append] at heq
        have hb' : b ∈ h.container.lru.drop n := hl₂.subset (heq ▸ by simp)
        exact absurd rfl (hnodup.2.2 b hb b hb')
    | cons x rest =>
        rw [List.cons_append, List.cons.injEq] at heq
        rw [heq.1]
        exact hl₁.subset List.mem_cons_self
  · have hnot : e ∉ h.container.lru := fun hmem => ((hc.idle e).mp hmem).2 he
    unfold LRUContainer.release at hmem ⊢
    dsimp only at hmem ⊢
    split at hmem
    next => exact absurd hmem hnot
    next hlast =>
      rw [if_neg hlast]
      split at hmem
      next hidle =>
        rw [if_pos hidle]
        rfl
      next => exact absurd hmem hnot

/-- Of two idle entries the one that has been touched in between goes last. -/
theorem evict_shortest_touched :
    ∃ h : History Nat, Reachable h ∧ h.idle = [1, 0] ∧
      ∃ n, (evictLoop 5 h.container.lru 0 h.container).1 = h.idle.take n := by
  have hfirst : @Reachable Nat _ _ _ := .tail .refl (.insert _ 7 5)
  have hfirst := hfirst.tail (.release _ 0 (by decide))
  have hsecond := hfirst.tail (.insert _ 8 5)
  have hsecond := hsecond.tail (.release _ 1 (by decide))
  have htouched := hsecond.tail (.lookup _ 7)
  have hlast := htouched.tail (.release _ 0 (by decide))
  obtain ⟨n, htake, _⟩ := (evict_shortest hlast 5).2
  exact ⟨_, hlast, by decide, n, htake⟩

end Reachable

end History

end StarCache
