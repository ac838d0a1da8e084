import StarCache.Utils.LruSimulation

/-!
# The calls on the heap

Every call of the container on the heap has an outcome and does what the call of the container
does, entries that are freed included.
-/

namespace StarCache

open MachineInt LRUContainer

namespace LRUContainer

variable {K : Type} [DecidableEq K] {c : LRUContainer K} {out gone : List Nat} {e : Nat}

/-- Nothing leads to an entry that has no references. -/
theorem Inv.gone_apart (hinv : c.Inv out) (hacc : c.Accounted gone) (he : e ∈ gone) :
    e ∉ c.lru ∧ ∀ key, c.table.lookup key ≠ some e := by
  have hzero := ((hacc.mem_gone e).mp he).2
  have htable : ∀ key, c.table.lookup key ≠ some e := by
    intro key hk
    have := (hinv.refs_pos hk).2
    omega
  refine ⟨fun hmem => ?_, htable⟩
  obtain ⟨⟨key, hk⟩, _⟩ := (hinv.idle e).mp hmem
  exact htable key hk

omit [DecidableEq K] in
theorem Accounted.charge_le (hacc : c.Accounted gone) (he : e < c.allocated)
    (hrefs : 0 < (c.handles e).refs) : (c.handles e).charge ≤ c.usage := by
  rw [hacc.usage]
  exact (unref_weight c he true hrefs).2

/-- An idle entry is valid, is found under its key, and only the table refers to it. -/
theorem Inv.idle_entry (hinv : c.Inv out) (he : e ∈ c.lru) :
    c.table.lookup (c.handles e).key = some e ∧ e < c.allocated ∧ (c.handles e).valid = true ∧
      (c.handles e).refs = 1 := by
  obtain ⟨⟨key, hk⟩, hout⟩ := (hinv.idle e).mp he
  obtain ⟨hkey, hvalid, hrefs⟩ := hinv.entry key e hk
  rw [List.count_eq_zero.mpr hout] at hrefs
  exact ⟨hkey ▸ hk, hinv.fresh key e hk, hvalid, hrefs⟩

end LRUContainer

namespace LRUShard

variable {K : Type} [DecidableEq K]

namespace Sim

variable {hash : K → Nat} {name : Nat → Nat} {s : LRUShard K} {c : LRUContainer K}
  {freed out gone : List Nat} {e : Nat}

theorem perm {freed' : List Nat} (h : Sim hash name s c freed) (hperm : freed.Perm freed') :
    Sim hash name s c freed' := by
  refine { h with
    alive := fun x hx => ?_
    onto := fun x hx hnot => h.onto x hx fun hmem => hnot (hperm.mem_iff.mp hmem)
    deleted := h.deleted.trans (hperm.map _) }
  exact ⟨(h.alive x hx).1, fun hmem => (h.alive x hx).2 (hperm.mem_iff.mpr hmem)⟩

theorem of_eq {c' : LRUContainer K} (h : Sim hash name s c freed) (heq : c = c') :
    Sim hash name s c' freed := heq ▸ h

theorem unref (h : Sim hash name s c freed) (hlive : s.Live e) {refs : Nat}
    (hrefs : (c.handles (name e)).refs = refs) (hpos : 0 < refs) :
    ∃ s', s.unref e = some (decide (refs - 1 = 0), s') ∧
      Sim hash name s' (c.unref (name e) (c.handles (name e)).valid) freed ∧
      (∀ x, s'.Live x ↔ s.Live x) := by
  subst hrefs
  refine ⟨_, ?_, h.write hlive _ ((c.handles (name e)).refs - 1), fun _ => Iff.rfl⟩
  unfold LRUShard.unref
  rw [h.read hlive, Option.bind_some, if_neg (Nat.ne_of_gt hpos)]

/-- The flag of an entry is cleared. -/
theorem setInvalid (h : Sim hash name s c freed) (hlive : s.Live e) :
    ∃ s', s.setValid e false = some s' ∧
      Sim hash name s' { c with handles := Function.update c.handles (name e)
                                  { c.handles (name e) with valid := false } } freed ∧
      (∀ x, s'.Live x ↔ s.Live x) := by
  refine ⟨_, ?_, h.write hlive false (c.handles (name e)).refs, fun _ => Iff.rfl⟩
  unfold LRUShard.setValid
  rw [h.read hlive, Option.map_some]

theorem freeGone (h : Sim hash name s c freed) (hinv : c.Inv out) (hacc : c.Accounted gone)
    (hlive : s.Live e) (hmem : name e ∈ gone) :
    ∃ s', s.free e = some s' ∧ Sim hash name s' c (name e :: freed) ∧
      ∀ x, s'.Live x ↔ s.Live x ∧ x ≠ e := by
  obtain ⟨hidle, htable⟩ := hinv.gone_apart hacc hmem
  exact h.free hlive hidle htable

theorem lookup (h : Sim hash name s c freed) (hinv : c.Inv out) (key : K)
    (hroom : ∀ e, c.table.lookup key = some e → (c.handles e).refs + 1 < 2 ^ 32) :
    ∃ found s', s.lookup key (hash key) = some (found, s') ∧
      found.map name = (c.lookup key).1 ∧ (∀ x, found = some x → s.Live x) ∧
      Sim hash name s' (c.lookup key).2 freed ∧ ∀ x, s'.Live x ↔ s.Live x := by
  -- the counter wraps, and nothing reads it
  have hcounted : Sim hash name { s with lookupCount := u64 (s.lookupCount + 1) }
      { c with lookupCount := c.lookupCount + 1 } freed := by
    refine { h with lookupCount := ?_ }
    dsimp only
    rw [h.lookupCount]
    unfold u64
    omega
  obtain ⟨m, hrep, hlookup, hmlive⟩ := h.table
  have hfind : LRUShard.tableLookup { s with lookupCount := u64 (s.lookupCount + 1) } key (hash key) =
      some (m.lookup key) := by
    unfold LRUShard.tableLookup
    rw [if_pos hcounted.chainsReadable]
    exact HandleTable.lookup_spec hrep key
  unfold LRUShard.lookup LRUContainer.lookup
  simp only [Option.bind_eq_bind]
  rw [hfind, Option.bind_some, hlookup]
  cases hk : m.lookup key with
  | none =>
      refine ⟨none, _, rfl, rfl, ?_, hcounted, fun _ => Iff.rfl⟩
      intro x hx
      cases hx
  | some e =>
      have hlive : s.Live e := hmlive key e hk
      have htable : c.table.lookup key = some (name e) := by rw [hlookup, hk, Option.map_some]
      obtain ⟨_, hvalid, hrefs⟩ := hinv.entry key _ htable
      have hread := hcounted.read (e := e) hlive
      have hsmall := hroom _ htable
      have hcount : u32 ((c.handles (name e)).refs + 1) = (c.handles (name e)).refs + 1 := by
        exact_mod_cast u32_of_lt hsmall
      dsimp only [Option.map_some] at hread ⊢
      rw [hread, Option.bind_some]
      dsimp only
      rw [if_neg (by rw [hvalid]; exact Bool.noConfusion), hcount]
      by_cases hone : (c.handles (name e)).refs = 1
      · have hout : name e ∉ out := by
          rw [← List.count_eq_zero]
          omega
        obtain ⟨s', hrun, hsim, hlive', _, _⟩ := hcounted.lruRemove (e := e) hlive
          ((hinv.idle _).mpr ⟨⟨key, htable⟩, hout⟩)
        rw [if_pos hone, if_pos hone, hrun, Option.bind_some]
        refine ⟨some e, _, rfl, rfl, ?_, ?_, hlive'⟩
        · intro x hx
          exact Option.some.inj hx ▸ hlive
        · exact hsim.write ((hlive' e).mpr hlive) (c.handles (name e)).valid _
      · rw [if_neg hone, if_neg hone, Option.bind_some]
        refine ⟨some e, _, rfl, rfl, ?_, ?_, fun _ => Iff.rfl⟩
        · intro x hx
          exact Option.some.inj hx ▸ hlive
        · exact hcounted.write (e := e) hlive (c.handles (name e)).valid _

theorem release (h : Sim hash name s c freed) (hinv : c.Inv out) (hacc : c.Accounted gone)
    (hlive : s.Live e) (hout : name e ∈ out) :
    ∃ s', s.release e = some s' ∧
      Sim hash name s' (c.release (name e)) (c.releaseFrees (name e) ++ freed) ∧
      ∀ x, s'.Live x → s.Live x := by
  obtain ⟨hlt, hrefs⟩ := hinv.held_refs_pos hout
  obtain ⟨s₁, hrun₁, hsim₁, hlive₁⟩ := h.unref hlive rfl hrefs
  have hread := hsim₁.read ((hlive₁ e).mpr hlive)
  rw [LRUContainer.unref_handles, if_pos rfl] at hread
  have hinv' := (hinv.release hout).1
  have hacc' := hacc.release hinv hout
  have hnot : name e ∉ c.lru := fun hmem => ((hinv.idle _).mp hmem).2 hout
  unfold LRUShard.release
  unfold LRUContainer.release at hinv' hacc' ⊢
  simp only [Option.bind_eq_bind]
  rw [hrun₁, Option.bind_some]
  dsimp only at hinv' hacc' ⊢
  rw [hread, Option.bind_some]
  dsimp only
  by_cases hlast : (c.handles (name e)).refs - 1 = 0
  · have hfrees : c.releaseFrees (name e) = [name e] := if_pos hlast
    rw [if_pos hlast] at hinv' hacc'
    rw [hfrees] at hacc' ⊢
    obtain ⟨s₂, hrun₂, hsim₂, hlive₂⟩ := (hsim₁.lessUsage (hacc.charge_le hlt hrefs)).freeGone
      hinv' hacc' ((hlive₁ e).mpr hlive) (List.mem_append_left _ (List.mem_singleton.mpr rfl))
    rw [if_pos (decide_eq_true hlast), if_pos hlast]
    exact ⟨s₂, hrun₂, hsim₂, fun x hx => (hlive₁ x).mp ((hlive₂ x).mp hx).1⟩
  · have hfrees : c.releaseFrees (name e) = [] := if_neg hlast
    rw [hfrees, List.nil_append, if_neg (by simpa using hlast), if_neg hlast]
    by_cases hidle : (c.handles (name e)).valid = true ∧ (c.handles (name e)).refs - 1 = 1
    · obtain ⟨s₂, hrun₂, hsim₂, hlive₂⟩ := hsim₁.lruAppend ((hlive₁ e).mpr hlive) hnot
      rw [if_pos hidle, if_pos hidle]
      exact ⟨s₂, hrun₂, hsim₂, fun x hx => (hlive₁ x).mp ((hlive₂ x).mp hx)⟩
    · rw [if_neg hidle, if_neg hidle]
      exact ⟨s₁, rfl, hsim₁, fun x => (hlive₁ x).mp⟩

theorem erase (h : Sim hash name s c freed) (hinv : c.Inv out) (hacc : c.Accounted gone) (key : K) :
    ∃ s', s.erase key (hash key) = some s' ∧
      Sim hash name s' (c.erase key) (c.replaceFrees key ++ freed) ∧ ∀ x, s'.Live x → s.Live x := by
  obtain ⟨found, table, hremove, hlookup, hmlive, hsim₀⟩ := h.tableRemove key
  have hinv' := (hinv.erase key).1
  have hacc' := hacc.erase hinv key
  unfold LRUShard.erase LRUContainer.replaceFrees
  unfold LRUContainer.replaceFrees at hacc'
  simp only [Option.bind_eq_bind]
  rw [hremove, Option.bind_some]
  dsimp only
  unfold LRUContainer.erase at hinv' hacc' ⊢
  cases found with
  | none =>
      rw [Option.map_none] at hlookup
      have hsame : c.table.erase key = c.table :=
        AList.ext (List.kerase_of_notMem_keys (AList.lookup_eq_none.mp hlookup))
      rw [hlookup]
      rw [hsame] at hsim₀
      exact ⟨_, rfl, hsim₀, fun _ => id⟩
  | some e =>
      rw [Option.map_some] at hlookup
      rw [hlookup] at hinv' hacc' ⊢
      obtain ⟨_, hvalid, _⟩ := hinv.entry key _ hlookup
      obtain ⟨hlt, hrefs⟩ := hinv.refs_pos hlookup
      have hlive : s.Live e := hmlive e rfl
      obtain ⟨s₁, hrun₁, hsim₁, hlive₁⟩ := hsim₀.unref (e := e) hlive rfl hrefs
      have hread := hsim₁.read ((hlive₁ e).mpr hlive)
      rw [LRUContainer.unref_handles, if_pos rfl] at hread
      dsimp only at hread hinv' hacc' ⊢
      rw [hrun₁, Option.bind_some]
      dsimp only
      rw [hread, Option.bind_some]
      dsimp only
      by_cases hlast : (c.handles (name e)).refs - 1 = 0
      · have hfrees : c.releaseFrees (name e) = [name e] := if_pos hlast
        have hone : (c.handles (name e)).refs = 1 := by omega
        have hidle : name e ∈ c.lru := by
          refine (hinv.idle _).mpr ⟨⟨key, hlookup⟩, ?_⟩
          rw [← List.count_eq_zero]
          have := (hinv.entry key _ hlookup).2.2
          omega
        rw [if_pos hlast, if_pos hvalid] at hinv' hacc'
        rw [hfrees] at hacc' ⊢
        obtain ⟨s₂, hrun₂, hsim₂, hlive₂, _, _⟩ :=
          (hsim₁.lessUsage (hacc.charge_le hlt hrefs)).lruRemove ((hlive₁ e).mpr hlive) hidle
        obtain ⟨s₃, hrun₃, hsim₃, hlive₃⟩ := hsim₂.setInvalid ((hlive₂ e).mpr ((hlive₁ e).mpr hlive))
        have hinvalid : Sim hash name s₃ { c.unref (name e) false with
            table := c.table.erase key
            usage := c.usage - (c.handles (name e)).charge
            lru := c.lru.erase (name e) } freed := by
          refine hsim₃.of_eq ?_
          unfold LRUContainer.unref
          dsimp only
          rw [Function.update_self, Function.update_idem]
        obtain ⟨s₄, hrun₄, hsim₄, hlive₄⟩ := hinvalid.freeGone hinv' hacc'
          ((hlive₃ e).mpr ((hlive₂ e).mpr ((hlive₁ e).mpr hlive)))
          (List.mem_append_left _ (List.mem_singleton.mpr rfl))
        rw [if_pos (decide_eq_true hlast), if_pos hvalid, hrun₂, Option.bind_some, hrun₃,
          Option.bind_some, if_pos hlast, if_pos hvalid]
        refine ⟨s₄, hrun₄, hsim₄, fun x hx => ?_⟩
        exact (hlive₁ x).mp ((hlive₂ x).mp ((hlive₃ x).mp ((hlive₄ x).mp hx).1))
      · have hfrees : c.releaseFrees (name e) = [] := if_neg hlast
        obtain ⟨s₂, hrun₂, hsim₂, hlive₂⟩ := hsim₁.setInvalid ((hlive₁ e).mpr hlive)
        rw [hfrees, List.nil_append, if_neg (by simpa using hlast), if_neg hlast]
        refine ⟨s₂, hrun₂, hsim₂.of_eq ?_, fun x hx => (hlive₁ x).mp ((hlive₂ x).mp hx)⟩
        unfold LRUContainer.unref
        dsimp only
        rw [Function.update_self, Function.update_idem]

/-- An older entry of the key goes the way it goes in the container. -/
theorem insert (h : Sim hash name s c freed) (hinv : c.Inv out) (hacc : c.Accounted gone)
    (hfresh : ¬ s.Live e) (hold : ∀ x ∈ freed, x < c.allocated) (hroom : s.table.elems < 2 ^ 31)
    (key : K) (charge : Nat) (hfits : c.usage + charge < 2 ^ 64) :
    ∃ s', s.insert key (hash key) charge e = some s' ∧
      Sim hash (Function.update name e c.allocated) s' (c.insert key charge).2
        (c.replaceFrees key ++ freed) ∧ ∀ x, s'.Live x → s.Live x ∨ x = e := by
  obtain ⟨old, table, hinsert, hlookup, hmlive, hsim₀⟩ := h.tableInsert hfresh hold hroom key charge
  have hlive₀ := (h.allocate hfresh hold key charge).2
  have hsim₁ := hsim₀.moreUsage hfits
  obtain ⟨_, hinv', _⟩ := hinv.insert key charge
  have hacc' := hacc.insert hinv key charge
  unfold LRUShard.insert LRUContainer.replaceFrees
  unfold LRUContainer.replaceFrees at hacc'
  simp only [Option.bind_eq_bind]
  rw [hinsert, Option.bind_some]
  dsimp only
  unfold LRUContainer.insert at hinv' hacc' ⊢
  dsimp only at hinv' hacc' ⊢
  cases old with
  | none =>
      rw [Option.map_none] at hlookup
      rw [hlookup]
      exact ⟨_, rfl, hsim₁, fun x hx => (hlive₀ x).mp hx⟩
  | some old =>
      rw [Option.map_some] at hlookup
      rw [hlookup] at hinv' hacc' ⊢
      have hlive : s.Live old := hmlive old rfl
      have hne : old ≠ e := fun heq => hfresh (heq ▸ hlive)
      have hname : Function.update name e c.allocated old = name old := Function.update_of_ne hne _ _
      obtain ⟨hlt, hrefs⟩ := hinv.refs_pos hlookup
      obtain ⟨_, hvalid, hcount⟩ := hinv.entry key _ hlookup
      have hsame : Function.update c.handles c.allocated
          { key := key, charge := charge, valid := true, refs := 2 } (name old) =
          c.handles (name old) := Function.update_of_ne (Nat.ne_of_lt hlt) _ _
      have hcharge := hacc.charge_le hlt hrefs
      dsimp only at hsim₁ hinv' hacc' ⊢
      generalize hc₁ : LRUContainer.mk (Function.update c.handles c.allocated
        { key := key, charge := charge, valid := true, refs := 2 }) (c.allocated + 1)
        (c.table.insert key c.allocated) c.lru (c.usage + charge) c.lookupCount = c₁ at *
      have hsame₁ : c₁.handles (name old) = c.handles (name old) := by
        rw [← hc₁]
        exact hsame
      have hlru₁ : c₁.lru = c.lru := by rw [← hc₁]
      have husage₁ : c₁.usage = c.usage + charge := by rw [← hc₁]
      obtain ⟨s₂, hrun₂, hsim₂, hlive₂⟩ := hsim₁.setInvalid ((hlive₀ old).mpr (Or.inl hlive))
      rw [hname, hsame₁] at hsim₂
      have hlive₂' : s₂.Live old := (hlive₂ old).mpr ((hlive₀ old).mpr (Or.inl hlive))
      obtain ⟨s₃, hrun₃, hsim₃, hlive₃⟩ := hsim₂.unref hlive₂' (by
        rw [hname]
        dsimp only
        rw [Function.update_self]) hrefs
      rw [hname] at hsim₃
      have hsim₃ : Sim hash (Function.update name e c.allocated) s₃ (c₁.unref (name old) false) freed := by
        refine hsim₃.of_eq ?_
        unfold LRUContainer.unref
        dsimp only
        rw [Function.update_self, Function.update_idem, hsame₁]
      have hlive₃' : s₃.Live old := (hlive₃ old).mpr hlive₂'
      have hread := hsim₃.read hlive₃'
      rw [hname, LRUContainer.unref_handles, if_pos rfl, hsame₁] at hread
      rw [hrun₂, Option.bind_some, hrun₃, Option.bind_some]
      dsimp only at hread ⊢
      rw [hread, Option.bind_some]
      dsimp only
      by_cases hlast : (c.handles (name old)).refs - 1 = 0
      · have hfrees : c.releaseFrees (name old) = [name old] := if_pos hlast
        have hidle : name old ∈ c.lru := by
          refine (hinv.idle _).mpr ⟨⟨key, hlookup⟩, ?_⟩
          rw [← List.count_eq_zero]
          omega
        rw [if_pos hlast] at hinv' hacc'
        rw [hfrees] at hacc' ⊢
        have hcharge₁ : (c.handles (name old)).charge ≤ (c₁.unref (name old) false).usage := by
          change _ ≤ c₁.usage
          rw [husage₁]
          exact hcharge.trans (Nat.le_add_right _ _)
        have hidle₁ : Function.update name e c.allocated old ∈ (c₁.unref (name old) false).lru := by
          rw [hname, LRUContainer.unref_lru, hlru₁]
          exact hidle
        obtain ⟨s₄, hrun₄, hsim₄, hlive₄, _, _⟩ := (hsim₃.lessUsage hcharge₁).lruRemove hlive₃' hidle₁
        rw [hname] at hsim₄
        have hgone : Function.update name e c.allocated old ∈ [name old] ++ gone := by
          rw [hname]
          exact List.mem_append_left _ (List.mem_singleton.mpr rfl)
        obtain ⟨s₅, hrun₅, hsim₅, hlive₅⟩ := hsim₄.freeGone hinv' hacc' ((hlive₄ old).mpr hlive₃') hgone
        rw [hname] at hsim₅
        rw [if_pos (decide_eq_true hlast), if_pos hlast, hrun₄, Option.bind_some]
        refine ⟨s₅, hrun₅, hsim₅, fun x hx => ?_⟩
        exact (hlive₀ x).mp ((hlive₂ x).mp ((hlive₃ x).mp ((hlive₄ x).mp ((hlive₅ x).mp hx).1)))
      · have hfrees : c.releaseFrees (name old) = [] := if_neg hlast
        rw [hfrees, List.nil_append, if_neg (by simpa using hlast), if_neg hlast]
        exact ⟨s₃, rfl, hsim₃, fun x hx => (hlive₀ x).mp ((hlive₂ x).mp ((hlive₃ x).mp hx))⟩

theorem evictOneEntry (h : Sim hash name s c freed) (hinv : c.Inv out) (hacc : c.Accounted gone)
    (hlive : s.Live e) (hmem : name e ∈ c.lru) :
    ∃ s', s.evictOneEntry e = some s' ∧ Sim hash name s' (c.evictOneEntry (name e)) freed ∧
      (∀ x, s'.Live x ↔ s.Live x) := by
  obtain ⟨_, hlt, hvalid, hone⟩ := hinv.idle_entry hmem
  have hrefs : 0 < (c.handles (name e)).refs := by omega
  obtain ⟨s₁, hrun₁, hsim₁, hlive₁, _, _⟩ := h.lruRemove hlive hmem
  have hlive₁' := (hlive₁ e).mpr hlive
  have hhash : s₁.table.hash e = hash (c.handles (name e)).key := by
    rw [hsim₁.hashed e hlive₁', hsim₁.key e hlive₁']
  obtain ⟨found, table, hrun₂, _, _, hsim₂⟩ := hsim₁.tableRemove (c.handles (name e)).key
  obtain ⟨s₃, hrun₃, hsim₃, hlive₃⟩ := hsim₂.setInvalid (e := e) hlive₁'
  have hlive₃' := (hlive₃ e).mpr hlive₁'
  obtain ⟨s₄, hrun₄, hsim₄, hlive₄⟩ := hsim₃.unref hlive₃' (by
    dsimp only
    rw [Function.update_self]) hrefs
  have hsim₄ : Sim hash name s₄ { c.unref (name e) false with
      lru := c.lru.erase (name e)
      table := c.table.erase (c.handles (name e)).key } freed := by
    refine hsim₄.of_eq ?_
    unfold LRUContainer.unref
    dsimp only
    rw [Function.update_self, Function.update_idem]
  unfold LRUShard.evictOneEntry
  simp only [Option.bind_eq_bind]
  rw [h.read hlive, Option.bind_some]
  dsimp only
  rw [if_neg (by simp [hvalid, hone]), hrun₁, Option.bind_some, hsim₁.readKey hlive₁', Option.bind_some,
    hhash, hrun₂, Option.bind_some]
  dsimp only
  rw [hrun₃, Option.bind_some, hrun₄, Option.bind_some]
  refine ⟨_, rfl, hsim₄.lessUsage (hacc.charge_le hlt hrefs), fun x => ?_⟩
  exact (hlive₄ x).trans ((hlive₃ x).trans (hlive₁ x))

/-- The head leads to the oldest entry of the idle list, or to itself. -/
theorem next_lru (h : Sim hash name s c freed) :
    (c.lru = [] ∧ s.cells.next .lru = some .lru) ∨
      ∃ e rest, c.lru = name e :: rest ∧ s.Live e ∧ s.cells.next .lru = some (.handle e) := by
  obtain ⟨l, hring, hlru⟩ := h.idle
  have hnext := hring.next_head
  cases l with
  | nil => exact Or.inl ⟨hlru, hnext⟩
  | cons e l =>
      refine Or.inr ⟨e, l.map name, hlru, ?_, hnext⟩
      exact hring.alive _ (by simp)

/-- Every idle entry is in a chain, so the loops over the idle list end in time. -/
theorem idle_length (h : Sim hash name s c freed) (hinv : c.Inv out) :
    c.lru.length ≤ s.table.elems := by
  obtain ⟨m, hrep, hlookup, _⟩ := h.table
  have hkey : ∀ x ∈ c.lru, c.table.lookup (c.handles x).key = some x := fun x hx =>
    (hinv.idle_entry hx).1
  have hnodup : (c.lru.map fun x => (c.handles x).key).Nodup := by
    refine List.Nodup.map_on (fun x hx y hy hxy => ?_) hinv.nodup
    have hx' := hkey x hx
    rw [hxy, hkey y hy] at hx'
    exact (Option.some.inj hx').symm
  have hsub : (c.lru.map fun x => (c.handles x).key) ⊆ m.keys := by
    intro k hk
    obtain ⟨x, hx, rfl⟩ := List.mem_map.mp hk
    rw [← AList.mem_keys, ← AList.lookup_isSome]
    have hx' := hkey x hx
    rw [hlookup] at hx'
    obtain ⟨a, ha, _⟩ := Option.map_eq_some_iff.mp hx'
    rw [ha]
    rfl
  have hle := (hnodup.subperm hsub).length_le
  rw [List.length_map] at hle
  exact hle.trans (Nat.le_of_eq hrep.size.symm)

/-- The loop that evicts: the sizes of what it has evicted and the usage that is left make up the
usage before, so that their sum does not wrap. -/
theorem evictFromLru (charge : Nat) : ∀ (idle : List Nat) (fuel size : Nat) {s : LRUShard K}
    {c : LRUContainer K} {gone : List Nat}, Sim hash name s c freed → c.Inv out → c.Accounted gone →
    c.lru = idle → idle.length < fuel → size + c.usage < 2 ^ 64 →
    ∃ evicted s', LRUShard.evictFromLru charge fuel size s = some (evicted, s') ∧
      evicted.map name = (evictLoop charge idle size c).1 ∧ (∀ x ∈ evicted, s.Live x) ∧
      Sim hash name s' (evictLoop charge idle size c).2 freed ∧ ∀ x, s'.Live x ↔ s.Live x := by
  intro idle
  induction idle with
  | nil =>
      intro fuel size s c gone h _ _ hidle hfuel _
      cases fuel with
      | zero => exact absurd hfuel (Nat.not_lt_zero _)
      | succ fuel =>
          have hnext : s.cells.next .lru = some .lru := by
            cases h.next_lru with
            | inl hempty => exact hempty.2
            | inr hmore =>
                obtain ⟨e, rest, heq, _⟩ := hmore
                rw [hidle] at heq
                cases heq
          refine ⟨[], s, ?_, rfl, by simp, h, fun _ => Iff.rfl⟩
          unfold LRUShard.evictFromLru
          split
          next => rw [hnext]
          next => rfl
  | cons x idle ih =>
      intro fuel size s c gone h hinv hacc hidle hfuel hsum
      cases fuel with
      | zero => exact absurd hfuel (Nat.not_lt_zero _)
      | succ fuel =>
          unfold LRUShard.evictFromLru LRUContainer.evictLoop
          by_cases hless : size < charge
          · rw [if_pos hless, if_pos hless]
            have hnext : ∃ e, name e = x ∧ s.Live e ∧ s.cells.next .lru = some (.handle e) := by
              cases h.next_lru with
              | inl hempty =>
                  rw [hidle] at hempty
                  cases hempty.1
              | inr hmore =>
                  obtain ⟨e, rest, heq, hlive, hnext⟩ := hmore
                  rw [hidle] at heq
                  exact ⟨e, (List.cons.inj heq).1.symm, hlive, hnext⟩
            obtain ⟨e, hname, hlive, hnext⟩ := hnext
            subst hname
            have hmem : name e ∈ c.lru := hidle ▸ List.mem_cons_self
            obtain ⟨hlookup, hlt, hvalid, hone⟩ := hinv.idle_entry hmem
            have hcharge := hacc.charge_le hlt (by omega)
            obtain ⟨s₁, hrun₁, hsim₁, hlive₁⟩ := h.evictOneEntry hinv hacc hlive hmem
            have hread := hsim₁.read ((hlive₁ e).mpr hlive)
            have hchargeSame : ((c.evictOneEntry (name e)).handles (name e)).charge =
                (c.handles (name e)).charge := by
              change ((c.unref (name e) false).handles (name e)).charge = _
              rw [unref_handles, if_pos rfl]
            have husage : (c.evictOneEntry (name e)).usage = c.usage - (c.handles (name e)).charge := rfl
            have hsize : u64 (size + (c.handles (name e)).charge) = size + (c.handles (name e)).charge := by
              exact_mod_cast u64_of_lt (by omega)
            obtain ⟨evicted, s₂, hrun₂, hevicted, hlive₂, hsim₂, hsame⟩ :=
              ih fuel (size + (c.handles (name e)).charge) hsim₁ (hinv.evictOneEntry hlookup).1
                (hacc.evictOneEntry hinv hmem) (by
                  change c.lru.erase (name e) = idle
                  rw [hidle, List.erase_cons_head])
                (Nat.lt_of_succ_lt_succ hfuel) (by
                  rw [husage]
                  omega)
            refine ⟨e :: evicted, s₂, ?_, ?_, ?_, hsim₂, fun y => (hsame y).trans (hlive₁ y)⟩
            · rw [hnext]
              simp only [Option.bind_eq_bind]
              rw [hrun₁, Option.bind_some, hread, Option.bind_some]
              dsimp only
              rw [hchargeSame, hsize, hrun₂, Option.bind_some]
            · rw [List.map_cons, hevicted]
            · intro y hy
              cases List.mem_cons.mp hy with
              | inl heq => exact heq ▸ hlive
              | inr hy => exact (hlive₁ y).mp (hlive₂ y hy)
          · rw [if_neg hless, if_neg hless]
            exact ⟨[], s, rfl, rfl, by simp, h, fun _ => Iff.rfl⟩

/-- The loop of `prune`. -/
theorem pruneLoop : ∀ (idle : List Nat) (fuel : Nat) {s : LRUShard K} {c : LRUContainer K}
    {gone : List Nat}, Sim hash name s c freed → c.Inv out → c.Accounted gone → c.lru = idle →
    idle.length < fuel →
    ∃ lastRefs s', LRUShard.pruneLoop fuel s = some (lastRefs, s') ∧ lastRefs.map name = idle ∧
      (∀ x ∈ lastRefs, s.Live x) ∧
      Sim hash name s' (idle.foldl LRUContainer.evictOneEntry c) freed ∧
      ∀ x, s'.Live x ↔ s.Live x := by
  intro idle
  induction idle with
  | nil =>
      intro fuel s c gone h _ _ hidle hfuel
      cases fuel with
      | zero => exact absurd hfuel (Nat.not_lt_zero _)
      | succ fuel =>
          refine ⟨[], s, ?_, rfl, by simp, h, fun _ => Iff.rfl⟩
          unfold LRUShard.pruneLoop
          cases h.next_lru with
          | inl hempty => rw [hempty.2]
          | inr hmore =>
              obtain ⟨e, rest, heq, _⟩ := hmore
              rw [hidle] at heq
              cases heq
  | cons x idle ih =>
      intro fuel s c gone h hinv hacc hidle hfuel
      cases fuel with
      | zero => exact absurd hfuel (Nat.not_lt_zero _)
      | succ fuel =>
          cases h.next_lru with
          | inl hempty =>
              rw [hidle] at hempty
              cases hempty.1
          | inr hmore =>
              obtain ⟨e, rest, heq, hlive, hnext⟩ := hmore
              rw [hidle] at heq
              obtain ⟨hname, _⟩ := List.cons.inj heq
              subst hname
              have hmem : name e ∈ c.lru := hidle ▸ List.mem_cons_self
              obtain ⟨hlookup, _⟩ := hinv.idle_entry hmem
              obtain ⟨s₁, hrun₁, hsim₁, hlive₁⟩ := h.evictOneEntry hinv hacc hlive hmem
              obtain ⟨lastRefs, s₂, hrun₂, hlast, hlive₂, hsim₂, hsame⟩ :=
                ih fuel hsim₁ (hinv.evictOneEntry hlookup).1 (hacc.evictOneEntry hinv hmem) (by
                  change c.lru.erase (name e) = idle
                  rw [hidle, List.erase_cons_head]) (Nat.lt_of_succ_lt_succ hfuel)
              refine ⟨e :: lastRefs, s₂, ?_, ?_, ?_, ?_, fun y => (hsame y).trans (hlive₁ y)⟩
              · unfold LRUShard.pruneLoop
                rw [hnext]
                simp only [Option.bind_eq_bind]
                rw [hrun₁, Option.bind_some, hrun₂, Option.bind_some]
              · rw [List.map_cons, hlast]
              · intro y hy
                cases List.mem_cons.mp hy with
                | inl heq => exact heq ▸ hlive
                | inr hy => exact (hlive₁ y).mp (hlive₂ y hy)
              · exact hsim₂

/-- Entries that nothing leads to are freed one after another. -/
theorem freeAll : ∀ (es : List Nat) {s : LRUShard K} {freed : List Nat}, Sim hash name s c freed →
    c.Inv out → c.Accounted gone → (es.map name).Nodup → (∀ x ∈ es, s.Live x ∧ name x ∈ gone) →
    ∃ s', es.foldlM LRUShard.free s = some s' ∧
      Sim hash name s' c ((es.map name).reverse ++ freed) ∧ ∀ x, s'.Live x → s.Live x := by
  intro es
  induction es with
  | nil =>
      intro s freed h _ _ _ _
      exact ⟨s, rfl, h, fun _ => id⟩
  | cons e es ih =>
      intro s freed h hinv hacc hnodup hall
      obtain ⟨hnot, hrest⟩ := List.nodup_cons.mp (List.map_cons ▸ hnodup)
      obtain ⟨hlive, hgone⟩ := hall e List.mem_cons_self
      obtain ⟨s₁, hrun₁, hsim₁, hlive₁⟩ := h.freeGone hinv hacc hlive hgone
      have hall' : ∀ x ∈ es, s₁.Live x ∧ name x ∈ gone := by
        intro x hx
        obtain ⟨hxlive, hxgone⟩ := hall x (List.mem_cons_of_mem _ hx)
        refine ⟨(hlive₁ x).mpr ⟨hxlive, fun heq => ?_⟩, hxgone⟩
        exact hnot (heq ▸ List.mem_map_of_mem hx)
      obtain ⟨s₂, hrun₂, hsim₂, hlive₂⟩ := ih hsim₁ hinv hacc hrest hall'
      refine ⟨s₂, ?_, ?_, fun x hx => ((hlive₁ x).mp (hlive₂ x hx)).1⟩
      · rw [List.foldlM_cons, hrun₁]
        exact hrun₂
      · rw [List.map_cons, List.reverse_cons, List.append_assoc, List.singleton_append]
        exact hsim₂

theorem evict (h : Sim hash name s c freed) (hinv : c.Inv out) (hacc : c.Accounted gone)
    (charge : Nat) :
    ∃ evicted s', s.evict charge = some (evicted, s') ∧
      evicted.map name = (evictLoop charge c.lru 0 c).1 ∧ (∀ x ∈ evicted, s.Live x) ∧
      Sim hash name s' (evictLoop charge c.lru 0 c).2 freed ∧ ∀ x, s'.Live x ↔ s.Live x :=
  evictFromLru charge c.lru (s.table.elems + 1) 0 h hinv hacc rfl
    (Nat.lt_succ_of_le (h.idle_length hinv)) (by
      have := h.fits
      omega)

theorem prune (h : Sim hash name s c freed) (hinv : c.Inv out) (hacc : c.Accounted gone) :
    ∃ s', s.prune = some s' ∧ Sim hash name s' c.prune.2 (c.prune.1 ++ freed) ∧
      ∀ x, s'.Live x → s.Live x := by
  obtain ⟨lastRefs, s₁, hrun₁, hnames, hlive₁, hsim₁, hsame⟩ :=
    pruneLoop c.lru (s.table.elems + 1) h hinv hacc rfl (Nat.lt_succ_of_le (h.idle_length hinv))
  obtain ⟨hinv', _, hacc'⟩ := prune_accounted c.lru hinv hacc rfl
  obtain ⟨s₂, hrun₂, hsim₂, hlive₂⟩ := freeAll lastRefs hsim₁ hinv' hacc' (hnames ▸ hinv.nodup) (by
    intro x hx
    refine ⟨(hsame x).mpr (hlive₁ x hx), List.mem_append_left _ ?_⟩
    rw [List.mem_reverse, ← hnames]
    exact List.mem_map_of_mem hx)
  refine ⟨s₂, ?_, ?_, fun x hx => (hsame x).mp (hlive₂ x hx)⟩
  · unfold LRUShard.prune
    simp only [Option.bind_eq_bind]
    rw [hrun₁, Option.bind_some]
    exact hrun₂
  · rw [hnames] at hsim₂
    exact hsim₂.perm ((List.reverse_perm _).append_right _)

end Sim

end LRUShard

end StarCache
