import StarCache.Foundation.LossyMap
import StarCache.Properties.RemovedObjects

/-!
# Calls that take effect at once

What a get would be given for a key, had it the cache for itself, changes as a map that forgets:
a step may lose values, and the step that inserts an item puts the bytes that are stored of it.
Each call that succeeds takes effect at one step between its start and its end. A get or a read is
answered with what is there, and a set puts its value. A remove finds nothing or leaves nothing
there, or the step puts a new value in the place of what the remove has found. A set that succeeds
puts its value once, and any other call puts nothing.
-/

namespace StarCache

namespace Sharing

open Discipline Pool
open Function (update update_self update_of_ne)
open LossyMap (Alters forgets_iff)

/-- What a step puts in the state before it: an insertion puts what is stored of its item. -/
def putBy (su : Setup) (u : Flight) : Move → Option (CacheKey × IOBuf)
  | .act _ (.insert _ r) _ =>
      (u.shared.bytes su.flags r).map fun buf => ((u.shared.items r).cacheKey, buf)
  | _ => none

/-- What it is for a call that succeeds to take effect in a step from `m` to `m'`. -/
def Call.TakesEffect (put : Option (CacheKey × IOBuf)) (m m' : CacheKey → Option IOBuf)
    (buf : IOBuf) : Call → Prop
  | .set cacheKey value _ => put = some (cacheKey, value) ∧ m' cacheKey = some value
  | .read cacheKey request => ∃ value, m cacheKey = some value ∧ buf = requested request value
  | .remove cacheKey =>
      m cacheKey = none ∨ m' cacheKey = none ∨ ∃ value, put = some (cacheKey, value)

section Visible

variable {su : Setup} {files : Nat → Nat → Nat → UInt8} {past before : Past} {l : Move}
  {p q u : Flight} {t : Nat} {r : ItemRef} {id : CacheId} {cacheKey : CacheKey} {value : IOBuf}

/-- Nothing is visible where the index has another object or a released one. -/
theorem Shared.visible_eq_none {s : Shared}
    (h : ∀ r, s.index (su.cachekey2id cacheKey) = some r → (s.items r).cacheKey = cacheKey →
      (s.items r).released = true) : s.visible su cacheKey = none := by
  cases hvisible : s.visible su cacheKey with
  | none => rfl
  | some value =>
      obtain ⟨r, hindex, hkey, hreleased, _⟩ := visible_eq_some.mp hvisible
      rw [h r hindex hkey] at hreleased
      cases hreleased

theorem putBy_insert (hflags : Sized su.flags) (hrun : CheckedRun su files past p)
    (hcalls : Calls Call.Proper past) (hstep : CheckedStep su (.act t (.insert id r) ()) p q) :
    putBy su p (.act t (.insert id r) ()) =
      some ((p.shared.items r).cacheKey, (p.shared.items r).value) := by
  obtain ⟨hbytes, _⟩ := inserted_stored hflags hrun hcalls hstep
  simp only [putBy, hbytes, Option.map_some]

theorem putBy_other (h : ∀ t id r, l ≠ .act t (.insert id r) ()) : putBy su p l = none := by
  cases l with
  | act t e a =>
      cases e with
      | insert id r => exact absurd rfl (h t id r)
      | _ => rfl
  | _ => rfl

/-- What is visible after a step was so before, unless the step is its insertion. -/
theorem visible_step (hflags : Sized su.flags) (hrun : CheckedRun su files past p)
    (hcalls : Calls Call.Proper ((p, l) :: past)) (hstep : CheckedStep su l p q)
    (hq : q.shared.visible su cacheKey = some value) :
    p.shared.visible su cacheKey = some value ∨
      ∃ t r, l = .act t (.insert (su.cachekey2id cacheKey) r) () ∧
        (q.shared.items r).cacheKey = cacheKey := by
  obtain ⟨r, hindex, hkey, hreleased, hvalue⟩ := Shared.visible_eq_some.mp hq
  by_cases hp : p.shared.index (su.cachekey2id cacheKey) = some r
  · have hlt := indexed_lt hflags hrun hcalls.tail hp
    obtain ⟨hkey', hvalue'⟩ := (reaches_guar hflags hrun hcalls hstep).2.item r hlt
    refine Or.inl (Shared.visible_eq_some.mpr
      ⟨r, hp, hkey'.symm.trans hkey, ?_, hvalue'.symm.trans hvalue⟩)
    cases hmark : (p.shared.items r).released with
    | false => rfl
    | true =>
        rw [released_step hstep hlt hmark] at hreleased
        cases hreleased
  · obtain ⟨t, rfl⟩ := index_step hstep hindex hp
    exact Or.inr ⟨t, r, rfl, hkey⟩

/-- What is visible changes as a map that forgets, by what the step puts. -/
theorem visible_alters (hflags : Sized su.flags) (hrun : CheckedRun su files past p)
    (hcalls : Calls Call.Proper ((p, l) :: past)) (hstep : CheckedStep su l p q) :
    Alters (putBy su p l) (p.shared.visible su) (q.shared.visible su) := by
  by_cases hinsert : ∃ t id r, l = .act t (.insert id r) ()
  · obtain ⟨t, id, r, rfl⟩ := hinsert
    obtain ⟨_, _, hvisible⟩ := inserted_stored hflags hrun hcalls.tail hstep
    rw [putBy_insert hflags hrun hcalls.tail hstep]
    refine forgets_iff.mpr fun other value hq => ?_
    by_cases hother : other = (p.shared.items r).cacheKey
    · rw [hother, update_self, ← hvisible, ← hother]
      exact hq
    · rw [update_of_ne hother]
      refine (visible_step hflags hrun hcalls hstep hq).resolve_right ?_
      -- the item that is inserted is of another key
      rintro ⟨t', r', hl, hkey'⟩
      have hr : r = r' := by
        injection hl with _ hatom
        injection hatom
      rw [← hr, inserted_shared hstep, (link_item ..).1] at hkey'
      exact hother hkey'.symm
  · rw [putBy_other fun t id r hl => hinsert ⟨t, id, r, hl⟩]
    refine forgets_iff.mpr fun cacheKey value hq => ?_
    refine (visible_step hflags hrun hcalls hstep hq).resolve_right ?_
    rintro ⟨t, r, hl, _⟩
    exact hinsert ⟨t, _, r, hl⟩

/-- So it does in each step of a run. -/
theorem visible_alters_at {after before : Past} {u : Flight} (hflags : Sized su.flags)
    (hrun : CheckedRun su files past p) (hcalls : Calls Call.Proper past)
    (hpast : past = after ++ (u, l) :: before) :
    Alters (putBy su u l) (u.shared.visible su) ((follower after p).shared.visible su) := by
  subst hpast
  obtain ⟨hbefore, hstep⟩ := hrun.before
  exact visible_alters hflags hbefore
    (fun v t c hc => hcalls v t c (List.mem_append_right _ hc)) hstep

/-- The last value that was put for a key. -/
def lastPut (su : Setup) : Past → CacheKey → Option IOBuf
  | [] => fun _ => none
  | (u, l) :: past =>
      match putBy su u l with
      | none => lastPut su past
      | some (cacheKey, value) => update (lastPut su past) cacheKey (some value)

/-- In no state of a run is an older value of a key visible than the last one that was put. -/
theorem visible_last (hflags : Sized su.flags) (hrun : CheckedRun su files past p)
    (hcalls : Calls Call.Proper past) (hvisible : p.shared.visible su cacheKey = some value) :
    lastPut su past cacheKey = some value := by
  induction hrun generalizing cacheKey value with
  | init => cases hvisible
  | @step past p q l hrun hstep ih =>
      have halters := visible_alters hflags hrun hcalls hstep
      unfold lastPut
      cases hput : putBy su p l with
      | none =>
          rw [hput] at halters
          exact ih hcalls.tail (forgets_iff.mp halters cacheKey value hvisible)
      | some put =>
          obtain ⟨k, v⟩ := put
          rw [hput] at halters
          have hlast := forgets_iff.mp halters cacheKey value hvisible
          show update (lastPut su past) k (some v) cacheKey = some value
          by_cases hk : cacheKey = k
          · rw [hk, update_self] at hlast ⊢
            exact hlast
          · rw [update_of_ne hk] at hlast ⊢
            exact ih hcalls.tail hlast

/-- In no state of a run is anything stored for a key but the last value that was put. -/
theorem stored_last (hflags : Sized su.flags) (hreaches : Reaches su files past p)
    (hpast : Regular past) (hstored : p.shared.stored su cacheKey = some value) :
    lastPut su past cacheKey = some value := by
  have hrun := Reaches.checked hreaches hpast
  obtain ⟨hinv, _⟩ := reaches_inv hflags hrun hpast.proper
  exact visible_last hflags hrun hpast.proper (stored_visible hinv hstored)

/-- A step since the start of a call at which it takes effect; a remove may do so at a step of
another call. -/
def TakesEffectAt (su : Setup) (past : Past) (p : Flight) (t : Nat) (c : Call) (buf : IOBuf) :
    Prop :=
  ∃ after u move before, past = after ++ (u, move) :: before ∧
    (∀ x ∈ after, ∀ c, x.2 ≠ .start t c) ∧
    (move.thread = t ∨ ∃ cacheKey, c = .remove cacheKey) ∧
    c.TakesEffect (putBy su u move) (u.shared.visible su) ((follower after p).shared.visible su) buf

/-- A get or a read takes effect when it finds its object. -/
theorem read_takes_effect {request : Option (Int × Nat)} {st : Status} {buf : IOBuf}
    (hflags : Sized su.flags) (hrun : CheckedRun su files past p) (hcalls : Calls Call.Proper past)
    (hexit : CheckedStep su (.exit t (.read cacheKey request, st, buf)) p q) (hok : st.ok = true) :
    TakesEffectAt su past p t (.read cacheKey request) buf := by
  obtain ⟨_, hread, _⟩ := reaches_result hflags hrun hcalls hexit
  obtain ⟨r, value, ⟨tr, htr, hfind⟩, hitem, hbuf⟩ := hread cacheKey request rfl hok
  obtain ⟨later, w, earlier, hpast, hearlier, hlater⟩ := deeds_split htr
  obtain ⟨after, before, u, rfl, hafter⟩ := deed_step (hearlier ▸ hfind)
  obtain ⟨hlooks, hlook⟩ := (hpast ▸ hrun).before
  have hcalls' := (hpast ▸ hcalls).before
  obtain ⟨hbefore, hstep⟩ := hlooks.before
  have hindex := found_indexed hstep
  have hlt := indexed_lt hflags hbefore hcalls'.before hindex
  -- a mark would still be there when the call looks for it
  have hreleased : (u.shared.items r).released = false := by
    cases hmark : (u.shared.items r).released with
    | false => rfl
    | true =>
        have hkept := hlooks.kept (released_kept hflags) hcalls' ⟨hlt, hmark⟩
        exact hkept.2.symm.trans (seen_released hlook)
  have hfirst : past = (later ++ (w, .act t (.getReleased r) false) :: after) ++
      (u, .act t (.find (su.cachekey2id cacheKey)) (some r)) :: before := by
    rw [hpast]
    simp only [List.append_assoc, List.cons_append]
  obtain ⟨hkey, hvalue⟩ := item_before hflags hcalls hrun hfirst hlt hitem
  refine ⟨_, u, _, before, hfirst, ?_, Or.inl rfl, value,
    Shared.visible_eq_some.mpr ⟨r, hindex, hkey, hreleased, hvalue⟩, hbuf⟩
  intro x hx
  rcases List.mem_append.mp hx with hx | hx
  · exact hlater x hx
  · rcases List.mem_cons.mp hx with rfl | hx
    · exact nofun
    · exact hafter x hx

/-- A set takes effect when it inserts its item. -/
theorem set_takes_effect {overwrite : Bool} {st : Status} {buf : IOBuf}
    (hflags : Sized su.flags) (hrun : CheckedRun su files past p) (hcalls : Calls Call.Proper past)
    (hexit : CheckedStep su (.exit t (.set cacheKey value overwrite, st, buf)) p q)
    (hok : st.ok = true) : TakesEffectAt su past p t (.set cacheKey value overwrite) buf := by
  obtain ⟨_, _, hset, _⟩ := reaches_result hflags hrun hcalls hexit
  obtain ⟨r, hinsert, hitem⟩ := hset cacheKey value overwrite rfl hok
  obtain ⟨after, before, u, hpast, hafter⟩ := deed_step hinsert
  obtain ⟨hbefore, hstep⟩ := (hpast ▸ hrun).before
  have hcalls' := (hpast ▸ hcalls).before
  obtain ⟨_, _, _, _, _, _, hlt, _⟩ := insert_step hflags hbefore hcalls' hstep
  obtain ⟨hkey, hvalue⟩ := item_before hflags hcalls hrun hpast hlt hitem
  obtain ⟨_, _, hvisible⟩ := inserted_stored hflags hbefore hcalls' hstep
  have hput := putBy_insert hflags hbefore hcalls' hstep
  rw [hkey, hvalue] at hvisible hput
  exact ⟨after, u, _, before, hpast, hafter, Or.inl rfl, hput, hvisible⟩

/-- A remove takes effect when it finds a released item, when the item that it has found is
released or goes from the index, or when another takes its place there. -/
theorem remove_takes_effect {st : Status} {buf : IOBuf} (hflags : Sized su.flags)
    (hrun : CheckedRun su files past p) (hcalls : Calls Call.Proper past)
    (hexit : CheckedStep su (.exit t (.remove cacheKey, st, buf)) p q) (hok : st.ok = true) :
    TakesEffectAt su past p t (.remove cacheKey) buf := by
  obtain ⟨r, hfound, hreleased⟩ := remove_released hflags hrun hcalls hexit hok
  obtain ⟨recent, old, u, hpast, hrecent⟩ := deed_step hfound
  have hindex := found_indexed (hpast ▸ hrun).before.2
  by_cases hmark : (u.shared.items r).released = true
  · refine ⟨recent, u, _, old, hpast, hrecent, Or.inl rfl, Or.inl ?_⟩
    refine Shared.visible_eq_none fun r' hr' _ => ?_
    rw [hindex] at hr'
    cases hr'
    exact hmark
  · -- a step after which the item is released or not in the index
    have hrun' := hpast ▸ hrun
    obtain ⟨after, ⟨v, l⟩, earlier, heq, ⟨since, rfl⟩, hv, hw⟩ :=
      hrun'.change (P := fun p => p.shared.index (su.cachekey2id cacheKey) = some r →
        (p.shared.items r).released = true) (fun h => hmark (h hindex)) fun _ => hreleased.2
    rw [heq] at hpast
    obtain ⟨hbefore, hstep⟩ := (hpast ▸ hrun).before
    refine ⟨after, v, l, since ++ old, hpast, fun x hx => ?_, Or.inr ⟨_, rfl⟩, Or.inr ?_⟩
    · rw [List.append_cons, ← List.cons_append, ← List.append_assoc] at heq
      have hx' := List.append_cancel_right heq ▸ List.mem_append_left _ hx
      rcases List.mem_append.mp hx' with hx' | hx'
      · exact hrecent x hx'
      · rw [List.mem_singleton.mp hx']
        exact nofun
    · cases hvisible : (follower after p).shared.visible su cacheKey with
      | none => exact Or.inl rfl
      | some value =>
          obtain ⟨r', hindex', hkey', hreleased', _⟩ := Shared.visible_eq_some.mp hvisible
          have hne : v.shared.index (su.cachekey2id cacheKey) ≠ some r' := by
            intro h
            refine hv fun h' => ?_
            rw [h] at h'
            cases h'
            rw [hw hindex'] at hreleased'
            cases hreleased'
          obtain ⟨t', rfl⟩ := index_step hstep hindex' hne
          have hput := putBy_insert hflags hbefore (hpast ▸ hcalls).before hstep
          rw [inserted_shared hstep, (link_item ..).1] at hkey'
          rw [hkey'] at hput
          exact Or.inr ⟨_, hput⟩

/-- Each call that succeeds takes effect. -/
theorem call_takes_effect {c : Call} {st : Status} {buf : IOBuf} (hflags : Sized su.flags)
    (hrun : CheckedRun su files past p) (hcalls : Calls Call.Proper past)
    (hexit : CheckedStep su (.exit t (c, st, buf)) p q) (hok : st.ok = true) :
    TakesEffectAt su past p t c buf := by
  cases c with
  | set cacheKey value overwrite => exact set_takes_effect hflags hrun hcalls hexit hok
  | read cacheKey request => exact read_takes_effect hflags hrun hcalls hexit hok
  | remove cacheKey => exact remove_takes_effect hflags hrun hcalls hexit hok

/-- Each call that succeeds takes effect at a step since its start, and every step of the run
changes what is visible as a map that forgets. -/
theorem takes_effect {c : Call} {st : Status} {buf : IOBuf} (hflags : Sized su.flags)
    (hreaches : Reaches su files past p) (hpast : Regular past)
    (hreturns : Moves su (.exit t (c, st, buf)) p q) (hok : st.ok = true) :
    TakesEffectAt su past p t c buf ∧ ∀ after u move before, past = after ++ (u, move) :: before →
      Alters (putBy su u move) (u.shared.visible su) ((follower after p).shared.visible su) := by
  have hrun := Reaches.checked hreaches hpast
  have hcalls := hpast.proper
  constructor
  · exact call_takes_effect hflags hrun hcalls (exit_checked hreturns) hok
  · exact fun after u move before heq => visible_alters_at hflags hrun hcalls heq

end Visible

/-- The get that was overtaken by a set takes effect before the set does. -/
theorem takes_effect_replaced : ∃ past p q, Reaches .small (fun _ _ _ => 0) past p ∧
    Moves .small (.exit 1 (.read [1] none, .OK, [9, 8, 7])) p q ∧
    p.shared.lookup .small [1] = some [5] ∧
    TakesEffectAt .small past p 1 (.read [1] none) [9, 8, 7] := by
  obtain ⟨past, p, hrun, hcalls, hnow, hresult, _⟩ := replaced_run
  obtain ⟨hreaches, hpast⟩ := CheckedRun.reaches hrun hcalls
  obtain ⟨q, hexit⟩ := exit_of_result hresult
  exact ⟨past, p, q, hreaches, hexit, hnow, (takes_effect sized_small hreaches hpast hexit rfl).1⟩

/-- The set that replaces the object was the last to put one. -/
theorem stored_last_replaced : ∃ past p, Reaches .small (fun _ _ _ => 0) past p ∧
    p.shared.stored .small [1] = some [5] ∧ lastPut .small past [1] = some [5] := by
  have hrun : (replaced.foldlM (exec (effect .small) (Call.thread .small))
      ⟨Shared.init fun _ _ _ => 0, fun _ => none⟩).any (fun p =>
        decide (p.shared.stored .small [1] = some [5])) = true := by
    decide +kernel
  obtain ⟨p, hexec, hp⟩ := (Option.any_eq_true _ _).mp hrun
  have hstored := of_decide_eq_true hp
  obtain ⟨past, _, hchecked, hcalls⟩ :=
    Pool.Run.exec .init (fun _ _ _ h => nomatch h) replaced proper_replaced hexec
  have hchecked : CheckedRun .small (fun _ _ _ => 0) past p := hchecked
  obtain ⟨hreaches, hpast⟩ := CheckedRun.reaches hchecked hcalls
  exact ⟨past, p, hreaches, hstored, stored_last sized_small hreaches hpast hstored⟩

/-! ## What a call puts -/

section Puts

variable {su : Setup} {files : Nat → Nat → Nat → UInt8} {past : Past} {l : Move} {p q : Flight}
  {t : Nat}

/-- What a thread has put since its call, latest first. -/
def putsOf (su : Setup) (t : Nat) : Past → List (CacheKey × IOBuf)
  | [] => []
  | (_, .start t' _) :: past => if t' = t then [] else putsOf su t past
  | (u, .act t' e a) :: past =>
      if t' = t then (putBy su u (.act t' e a)).toList ++ putsOf su t past else putsOf su t past
  | (_, .exit _ _) :: past => putsOf su t past

theorem putsOf_other (h : l.thread ≠ t) : putsOf su t ((p, l) :: past) = putsOf su t past := by
  cases l with
  | start | act => exact if_neg h
  | exit => rfl

/-- A thread has put nothing when it has inserted nothing, and what its set was called with
otherwise. -/
theorem putsOf_spec (hflags : Sized su.flags) (hrun : CheckedRun su files past p)
    (hcalls : Calls Call.Proper past) (t : Nat) :
    (NoInsert (deeds t past) → putsOf su t past = []) ∧
      (¬ NoInsert (deeds t past) → ∀ c, calling t past = some c →
        putsOf su t past = c.puts true) := by
  induction hrun with
  | init => exact ⟨fun _ => rfl, fun h => absurd noInsert_nil h⟩
  | @step past p q l hrun hstep ih =>
      have ih := ih hcalls.tail
      by_cases ht : l.thread = t
      · cases l with
        | start t' c =>
            obtain rfl : t' = t := ht
            rw [deeds, putsOf, if_pos rfl, if_pos rfl]
            exact ⟨fun _ => rfl, fun h => absurd noInsert_nil h⟩
        | act t' e a =>
            obtain rfl : t' = t := ht
            rw [deeds, putsOf, calling, if_pos rfl, if_pos rfl]
            by_cases he : ∃ id r, e = .insert id r
            · obtain ⟨id, r, rfl⟩ := he
              obtain ⟨cacheKey, value, overwrite, hcall, _, hnone, _, hkey, hvalue, _⟩ :=
                insert_step hflags hrun hcalls.tail hstep
              refine ⟨fun h => absurd List.mem_cons_self (h id r), fun _ c hc => ?_⟩
              obtain rfl := Option.some.inj (hcall.symm.trans hc)
              rw [putBy_insert hflags hrun hcalls.tail hstep, ih.1 hnone, hkey, hvalue]
              rfl
            · have hput : putBy su p (.act t' e a) = none := putBy_other fun t id r h => by
                cases h
                exact he ⟨id, r, rfl⟩
              have hplain : e.Plain := by
                cases e with
                | insert id r => exact absurd ⟨id, r, rfl⟩ he
                | _ => trivial
              rw [hput]
              refine ⟨fun h => ih.1 fun id r hmem => h id r (List.mem_cons_of_mem _ hmem),
                fun h => ih.2 fun hnone => h (noInsert_cons hplain hnone)⟩
        | exit t' a => exact ih
      · rw [putsOf_other ht, deeds_other ht, calling_other ht]
        exact ih

/-- A call returns as it may end. -/
theorem exit_mayEnd {a : Call × Status × IOBuf} (hrun : CheckedRun su files past p)
    (hcalls : Calls Call.Proper past) (hexit : CheckedStep su (.exit t a) p q) :
    ∃ c, calling t past = some c ∧ c.MayEnd a (deeds t past) := by
  cases hexit with
  | exit hdone => exact hrun.obeys (fun c _ => call_obeys c) hcalls hdone

/-- What a call has put when it returns: its key and its value, once, if it is a set that succeeds,
and nothing otherwise. -/
theorem call_puts {c : Call} {st : Status} {buf : IOBuf} (hflags : Sized su.flags)
    (hreaches : Reaches su files past p) (hpast : Regular past)
    (hreturns : Moves su (.exit t (c, st, buf)) p q) : putsOf su t past = c.puts st.ok := by
  have hrun := Reaches.checked hreaches hpast
  have hcalls := hpast.proper
  have hexit := exit_checked hreturns
  obtain ⟨c', hcall, rfl, hend⟩ := exit_mayEnd hrun hcalls hexit
  obtain ⟨hnothing, hall⟩ := putsOf_spec hflags hrun hcalls t
  cases hputs : c.puts st.ok with
  | nil => exact hnothing (hend hputs)
  | cons put rest =>
      cases c with
      | read | remove => cases hputs
      | set cacheKey value overwrite =>
          cases hok : st.ok with
          | false =>
              rw [hok] at hputs
              cases hputs
          | true =>
              obtain ⟨_, _, hset, _⟩ := reaches_result hflags hrun hcalls hexit
              obtain ⟨r, hinsert, _⟩ := hset cacheKey value overwrite rfl hok
              rw [hok] at hputs
              rw [← hputs]
              exact hall (fun h => h _ r hinsert) _ hcall

end Puts

/-- The set that overtakes the get has put its value once. -/
theorem call_puts_replaced : ∃ past p q, Reaches .small (fun _ _ _ => 0) past p ∧
    Moves .small (.exit 2 (.set [1] [5] true, .OK, [])) p q ∧
    putsOf .small 2 past = [([1], [5])] := by
  obtain ⟨past, p, hrun, hcalls, _, _, hresult⟩ := replaced_run
  obtain ⟨hreaches, hpast⟩ := CheckedRun.reaches hrun hcalls
  obtain ⟨q, hexit⟩ := exit_of_result hresult
  exact ⟨past, p, q, hreaches, hexit, call_puts sized_small hreaches hpast hexit⟩

end Sharing

end StarCache
