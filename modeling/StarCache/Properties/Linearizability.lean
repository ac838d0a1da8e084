import StarCache.Sharing.Stored

/-!
# Gets, reads and sets in flight

Operations run on shared objects in any order of their steps, and between the steps of a read its
object may be flushed, evicted, promoted, replaced or removed. What a get or a read returns when
it succeeds is what the cache held for the key at one moment of the call; and when a set that
succeeds has inserted its item, every byte of its value is stored for the key.
-/

namespace StarCache

namespace Sharing

open Discipline Pool

/-- What the cache holds for a key. -/
def Shared.lookup (su : Setup) (s : Shared) (cacheKey : CacheKey) : Option IOBuf :=
  match s.index (su.cachekey2id cacheKey) with
  | none => none
  | some r => if (s.items r).cacheKey = cacheKey then some (s.items r).value else none

section Moments

variable {su : Setup} {files : Nat → Nat → Nat → UInt8} {past after before : Past} {p q : Flight}
  {t : Nat} {r : ItemRef} {cacheKey : CacheKey} {value : IOBuf}

theorem Shared.lookup_eq_some {s : Shared} : s.lookup su cacheKey = some value ↔
    ∃ r, s.index (su.cachekey2id cacheKey) = some r ∧ (s.items r).cacheKey = cacheKey ∧
      (s.items r).value = value := by
  unfold lookup
  cases hindex : s.index (su.cachekey2id cacheKey) with
  | none => exact ⟨fun h => (nomatch h), fun ⟨_, h, _⟩ => nomatch h⟩
  | some r =>
      dsimp only
      constructor
      · intro h
        split at h
        next hkey => exact ⟨r, rfl, hkey, Option.some.inj h⟩
        next => cases h
      · rintro ⟨_, ⟨⟩, hkey, hvalue⟩
        rw [if_pos hkey, hvalue]

/-- The item that a thread finds is in the index. -/
theorem found_indexed {id : CacheId} (hstep : CheckedStep su (.act t (.find id) (some r)) p q) :
    p.shared.index id = some r := by
  cases hstep with
  | act hact heffect =>
      simp only [effect] at heffect
      cases hid : p.shared.index id with
      | none =>
          rw [hid] at heffect
          cases heffect
      | some r' =>
          rw [hid] at heffect
          cases heffect
          rfl

/-- An item has been what it is since it was made. -/
theorem item_before (hflags : Sized su.flags) (hcalls : Calls Call.Proper past)
    (hrun : CheckedRun su files past q) {x : Flight × Move} (hpast : past = after ++ x :: before)
    (hr : r < x.1.shared.itemCount) {tr : Deeds Atom Atom.Answer}
    (hitem : IsItem r cacheKey value tr q.shared) :
    (x.1.shared.items r).cacheKey = cacheKey ∧ (x.1.shared.items r).value = value := by
  subst hpast
  obtain ⟨_, hkey, hvalue⟩ := reaches_lasting hflags
    (P := fun s => r < s.itemCount ∧ (s.items r).cacheKey = (x.1.shared.items r).cacheKey ∧
      (s.items r).value = (x.1.shared.items r).value) (fun _ => lasting_isItem) hrun hcalls
    ⟨hr, rfl, rfl⟩
  exact ⟨hkey.symm.trans hitem.2.1, hvalue.symm.trans hitem.2.2⟩

/-- What the cache holds is the value of a set that has been called. -/
theorem lookup_set (hflags : Sized su.flags) (hrun : CheckedRun su files past p)
    (hcalls : Calls Call.Proper past) (hlookup : p.shared.lookup su cacheKey = some value) :
    ∃ u t overwrite, (u, .start t (.set cacheKey value overwrite)) ∈ past := by
  obtain ⟨r, hindex, hkey, hvalue⟩ := Shared.lookup_eq_some.mp hlookup
  have hhas := (reaches_inv hflags hrun hcalls).1.contents.value r
    (indexed_lt hflags hrun hcalls hindex)
  rw [hkey, hvalue] at hhas
  exact hhas.2.2

end Moments

/-! ## A read and a set at once -/

/-- One mutex for the blocks of even and one for those of odd index. -/
def Setup.small : Setup where
  toPlatform := .simple .small .reliable
  lockShardBits := 1
  dcheck := false

theorem sized_small : Sized Setup.small.flags := ⟨geometry_small, Or.inl rfl, by decide⟩

/-- Blocks go to memory, and nothing fails. -/
def Input.calm : Input where
  answer
    | .busy => false
    | .checkWrite => .mem
    | .flushAdmission => .skip
    | .checkPromote => false
    | .memEvicted | .diskEvicted => []
    | .alignIobuf => none
  granted := true
  picked := none
  transfer := ⟨true, fun _ => 0, none, 0⟩

/-- The commands of a call. -/
theorem proper_call {t n : Nat} {i : Input} {c : Call} (hc : c.Proper) (t' : Nat) (c' : Call)
    (h : .call t' c' ∈ Command.call t c :: List.replicate n (.go t i)) : c'.Proper := by
  rcases List.mem_cons.mp h with heq | h
  · cases heq
    exact hc
  · cases List.eq_of_mem_replicate h

theorem proper_go {t n : Nat} {i : Input} (t' : Nat) (c' : Call)
    (h : Command.call t' c' ∈ List.replicate n (Command.go t i)) : c'.Proper := by
  cases List.eq_of_mem_replicate h

theorem proper_append {commands rest : List (Command Call Input)}
    (hcommands : ∀ t c, .call t c ∈ commands → c.Proper) (hrest : ∀ t c, .call t c ∈ rest → c.Proper)
    (t : Nat) (c : Call) (h : .call t c ∈ commands ++ rest) : c.Proper :=
  (List.mem_append.mp h).elim (hcommands t c) (hrest t c)

theorem proper_set {cacheKey : CacheKey} {buf : IOBuf} {overwrite : Bool}
    (h : buf.length ≤ 2147483648) : (Call.set cacheKey buf overwrite).Proper := h

theorem proper_get {cacheKey : CacheKey} : (Call.read cacheKey none).Proper := fun _ _ h => nomatch h

/-- A set; a get that has read the block when another set replaces the object; and the rest of
the get. -/
def replaced : List (Command Call Input) :=
  .call 0 (.set [1] [9, 8, 7] false) :: List.replicate 14 (.go 0 .calm) ++
    .call 1 (.read [1] none) :: List.replicate 11 (.go 1 .calm) ++
    .call 2 (.set [1] [5] true) :: List.replicate 20 (.go 2 .calm) ++
    List.replicate 2 (.go 1 .calm)

theorem proper_replaced : ∀ t c, .call t c ∈ replaced → c.Proper :=
  proper_append (proper_append (proper_append (proper_call (proper_set (by decide)))
    (proper_call proper_get)) (proper_call (proper_set (by decide)))) proper_go

/-- The get returns the old value, and the cache holds the new one. -/
theorem replaced_run : ∃ past p, CheckedRun .small (fun _ _ _ => 0) past p ∧
    Calls Call.Proper past ∧ p.shared.lookup .small [1] = some [5] ∧
    (p.threads 1).bind Thread.result = some (.read [1] none, .OK, [9, 8, 7]) ∧
    (p.threads 2).bind Thread.result = some (.set [1] [5] true, .OK, []) := by
  have hrun : (replaced.foldlM (exec (effect .small) (Call.thread .small))
      ⟨Shared.init fun _ _ _ => 0, fun _ => none⟩).any (fun p => decide (
        p.shared.lookup .small [1] = some [5] ∧
        (p.threads 1).bind Thread.result = some (.read [1] none, .OK, [9, 8, 7]) ∧
        (p.threads 2).bind Thread.result = some (.set [1] [5] true, .OK, []))) = true := by
    decide +kernel
  obtain ⟨p, hexec, hp⟩ := (Option.any_eq_true _ _).mp hrun
  obtain ⟨past, _, hpast, hcalls⟩ :=
    Pool.Run.exec .init (fun _ _ _ h => nomatch h) replaced proper_replaced hexec
  exact ⟨past, p, hpast, hcalls, of_decide_eq_true hp⟩

/-- A call that has its result can return it. -/
theorem exit_of_result {su : Setup} {p : Flight} {t : Nat} {result : Call × Status × IOBuf}
    (h : (p.threads t).bind Thread.result = some result) : ∃ q, Moves su (.exit t result) p q := by
  obtain ⟨m, hm, hresult⟩ := Option.bind_eq_some_iff.mp h
  cases m with
  | done a =>
      cases hresult
      exact ⟨_, .exit hm⟩
  | act => cases hresult

/-! ## Moments of calls -/

theorem exit_checked {su : Setup} {p q : Flight} {t : Nat} {result : Call × Status × IOBuf}
    (h : Moves su (.exit t result) p q) : CheckedStep su (.exit t result) p q :=
  Moves.checked h fun ⟨_, hl⟩ => nomatch hl

/-- A get or a read that succeeds returns the part it asked for of the value that the cache held
for the key at a step of the call; and that is the value of an earlier set of this key. -/
theorem read_linearizable {su : Setup} {files : Nat → Nat → Nat → UInt8} {past : Past}
    {p q : Flight} {t : Nat} {cacheKey : CacheKey} {request : Option (Int × Nat)} {st : Status}
    {buf : IOBuf} (hflags : Sized su.flags) (hreaches : Reaches su files past p)
    (hpast : Regular past) (hreturns : Moves su (.exit t (.read cacheKey request, st, buf)) p q)
    (hok : st.ok = true) :
    ∃ after before u move value, past = after ++ (u, move) :: before ∧ move.thread = t ∧
      (∀ x ∈ after, ∀ c, x.2 ≠ .start t c) ∧ u.shared.lookup su cacheKey = some value ∧
      buf = requested request value ∧
      ∃ v t' overwrite, (v, .start t' (.set cacheKey value overwrite)) ∈ before := by
  have hrun := Reaches.checked hreaches hpast
  have hcalls := hpast.proper
  obtain ⟨_, hread, _⟩ := reaches_result hflags hrun hcalls (exit_checked hreturns)
  obtain ⟨r, value, hlooked, hitem, hbuf⟩ := hread cacheKey request rfl hok
  obtain ⟨after, before, u, hsplit, hafter⟩ := deed_step hlooked.known
  obtain ⟨hbefore, hstep⟩ := (hsplit ▸ hrun).before
  have hcalls' : Calls Call.Proper before := (hsplit ▸ hcalls).before
  -- at this step the index has the item
  have hindex := found_indexed hstep
  obtain ⟨hkey, hvalue⟩ :=
    item_before hflags hcalls hrun hsplit (indexed_lt hflags hbefore hcalls' hindex) hitem
  have hlookup : u.shared.lookup su cacheKey = some value :=
    Shared.lookup_eq_some.mpr ⟨r, hindex, hkey, hvalue⟩
  exact ⟨after, before, u, _, value, hsplit, rfl, hafter, hlookup, hbuf,
    lookup_set hflags hbefore hcalls' hlookup⟩

/-- The get that was overtaken by a set returns what the cache held before. -/
theorem read_linearizable_replaced : ∃ past p q, Reaches .small (fun _ _ _ => 0) past p ∧
    Moves .small (.exit 1 (.read [1] none, .OK, [9, 8, 7])) p q ∧
    p.shared.lookup .small [1] = some [5] ∧
    ∃ after before u move value, past = after ++ (u, move) :: before ∧ move.thread = 1 ∧
      u.shared.lookup .small [1] = some value ∧ [9, 8, 7] = requested none value := by
  obtain ⟨past, p, hrun, hcalls, hnow, hresult, _⟩ := replaced_run
  obtain ⟨hreaches, hpast⟩ := CheckedRun.reaches hrun hcalls
  obtain ⟨q, hexit⟩ := exit_of_result hresult
  obtain ⟨after, before, u, move, value, hsplit, hthread, _, hlookup, hbuf, _⟩ :=
    read_linearizable sized_small hreaches hpast hexit rfl
  exact ⟨past, p, q, hreaches, hexit, hnow, after, before, u, move, value, hsplit, hthread, hlookup,
    hbuf⟩

/-- A set that succeeds has put its value into the cache at a step of the call, after which every
byte of it is stored for the key. -/
theorem set_linearizable {su : Setup} {files : Nat → Nat → Nat → UInt8} {past : Past}
    {p q : Flight} {t : Nat} {cacheKey : CacheKey} {value : IOBuf} {overwrite : Bool} {st : Status}
    {buf : IOBuf} (hflags : Sized su.flags) (hreaches : Reaches su files past p)
    (hpast : Regular past)
    (hreturns : Moves su (.exit t (.set cacheKey value overwrite, st, buf)) p q)
    (hok : st.ok = true) :
    ∃ after before u move, past = after ++ (u, move) :: before ∧ move.thread = t ∧
      (∀ x ∈ after, ∀ c, x.2 ≠ .start t c) ∧ Moves su move u (follower after p) ∧
      (follower after p).shared.stored su cacheKey = some value ∧
      (follower after p).shared.visible su cacheKey = some value := by
  have hrun := Reaches.checked hreaches hpast
  have hcalls := hpast.proper
  obtain ⟨_, _, hset, _⟩ := reaches_result hflags hrun hcalls (exit_checked hreturns)
  obtain ⟨r, hinsert, hitem⟩ := hset cacheKey value overwrite rfl hok
  obtain ⟨after, before, u, hsplit, hafter⟩ := deed_step hinsert
  obtain ⟨hbefore, hstep⟩ := (hsplit ▸ hrun).before
  have hcalls' : Calls Call.Proper before := (hsplit ▸ hcalls).before
  obtain ⟨_, _, _, _, _, _, hlt, _⟩ := insert_step hflags hbefore hcalls' hstep
  obtain ⟨hkey, hvalue⟩ := item_before hflags hcalls hrun hsplit hlt hitem
  obtain ⟨_, hstored, hvisible⟩ := inserted_stored hflags hbefore hcalls' hstep
  rw [hkey, hvalue] at hstored hvisible
  exact ⟨after, before, u, _, hsplit, rfl, hafter, CheckedStep.moves hstep, hstored, hvisible⟩

theorem set_linearizable_replaced : ∃ past p q, Reaches .small (fun _ _ _ => 0) past p ∧
    Moves .small (.exit 2 (.set [1] [5] true, .OK, [])) p q ∧
    ∃ after before u move, past = after ++ (u, move) :: before ∧ move.thread = 2 ∧
      (follower after p).shared.stored .small [1] = some [5] := by
  obtain ⟨past, p, hrun, hcalls, _, _, hresult⟩ := replaced_run
  obtain ⟨hreaches, hpast⟩ := CheckedRun.reaches hrun hcalls
  obtain ⟨q, hexit⟩ := exit_of_result hresult
  obtain ⟨after, before, u, move, hsplit, hthread, _, _, hstored, _⟩ :=
    set_linearizable sized_small hreaches hpast hexit rfl
  exact ⟨past, p, q, hreaches, hexit, after, before, u, move, hsplit, hthread, hstored⟩

end Sharing

end StarCache
