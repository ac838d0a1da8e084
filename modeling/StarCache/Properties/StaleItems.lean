import StarCache.Impl.Concurrent

/-!
# Stale items

An operation that unlinks an item does so by the id, and some time after it has found the item
or has marked it as released. What is in the index then may be a newer item.
-/

namespace StarCache

namespace Concurrent

open Thread Pool

/-! ## What leads to an unlinking -/

/-- Anything but the removal of an item from the index. -/
def Free : Option Atom → Prop
  | some (.remove _ _) => False
  | _ => True

/-- Who marks an item as released unlinks it next, who has found it may do so, and nobody else. -/
def requires : (e : Atom) → e.Answer → Option Atom → Prop
  | .find id, some r => fun o => Free o ∨ o = some (.remove id r)
  | .setReleased id r, true | .releaseIfEmpty id r, true => fun o => o = some (.remove id r)
  | _, _ => Free

section Guarded

variable {pf : Platform} {α β : Type}

theorem requires_of_free (e : Atom) (a : e.Answer) (h : requires e a none) (o : Option Atom)
    (ho : Free o) : requires e a o := by
  unfold requires at h ⊢
  split
  next => exact Or.inl ho
  next => cases h
  next => cases h
  next => exact ho

/-- Free operations one after the other. -/
theorem andThen {m : Op α} {f : α → Op β} (hm : m.Guarded requires Free)
    (hf : ∀ a, (f a).Guarded requires Free) : (m >>= f).Guarded requires Free :=
  hm.bind requires_of_free (fun _ _ h => h) hf

theorem free_retry {attempt : Op (Option α)} {remedy : Op Unit}
    (hattempt : attempt.Guarded requires Free) (hremedy : remedy.Guarded requires Free) (n : Nat) :
    (retry attempt remedy n).Guarded requires Free :=
  guarded_retry requires_of_free trivial hattempt hremedy n

theorem free_when {c : Bool} {m : Op Unit} (h : m.Guarded requires Free) :
    (when c m).Guarded requires Free := by
  unfold when
  split
  next => exact h
  next => trivial

theorem guarded_undefined : (undefined : Op α).Guarded requires Free :=
  ⟨trivial, fun a => a.elim⟩

/-- The unlinking and what follows. -/
theorem guarded_removeCacheItem (id : CacheId) (r : ItemRef) :
    (removeCacheItem pf id r).Guarded requires (fun o => o = some (.remove id r)) := by
  unfold removeCacheItem
  refine guarded_perform_bind rfl fun _ => guarded_perform_bind trivial fun item => ?_
  refine andThen (guarded_forEach requires_of_free trivial fun i => ?_) fun _ => free_when ?_
  · exact guarded_perform trivial fun _ => trivial
  · exact guarded_undefined

/-- An operation goes on after the unlinking. -/
theorem guarded_unlink {id : CacheId} {r : ItemRef} {f : Unit → Op β}
    (hf : ∀ a, (f a).Guarded requires Free) :
    (removeCacheItem pf id r >>= f).Guarded requires (fun o => o = some (.remove id r)) :=
  (guarded_removeCacheItem id r).bind requires_of_free (fun h => by cases h) hf

theorem guarded_processEvictedDiskItems (ids : List CacheId) :
    (processEvictedDiskItems pf ids).Guarded requires Free := by
  induction ids with
  | nil => trivial
  | cons id rest ih =>
      unfold processEvictedDiskItems
      refine guarded_perform_bind trivial fun found => ?_
      cases found with
      | none => trivial
      | some r =>
          refine guarded_perform_bind (Or.inl trivial) fun _ => ?_
          refine guarded_perform_bind trivial fun released => ?_
          cases released with
          | false => exact ih
          | true => exact guarded_unlink fun _ => ih

theorem guarded_allocDiskBlock : (allocDiskBlock pf).Guarded requires Free := by
  refine free_retry (guarded_perform trivial fun _ => trivial) ?_ _
  exact guarded_perform_bind trivial fun evicted => guarded_processEvictedDiskItems evicted

theorem guarded_writeVisible (r : ItemRef) (i : Nat) (id : BlockId) :
    (writeVisible r i id).Guarded requires Free := by
  unfold writeVisible
  refine guarded_perform_bind trivial fun st => ?_
  split
  next => exact guarded_perform_bind trivial fun _ => trivial
  next => trivial

theorem guarded_flushBlockSegments (r : ItemRef) (i : Nat) :
    (flushBlockSegments pf r i).Guarded requires Free := by
  unfold flushBlockSegments
  refine guarded_perform_bind trivial fun block => andThen ?_ fun _ => ?_
  · unfold flushToDisk
    split
    next => exact guarded_writeVisible _ _ _
    next =>
      refine andThen guarded_allocDiskBlock fun found => ?_
      cases found with
      | none => trivial
      | some id => exact guarded_writeVisible _ _ _
  · exact guarded_perform_bind trivial fun _ => trivial

theorem guarded_deleteBlock (r : ItemRef) (key : BlockKey) :
    (deleteBlock pf r key).Guarded requires Free := by
  unfold deleteBlock
  refine guarded_perform_bind trivial fun _ => guarded_perform_bind trivial fun released => ?_
  cases released with
  | false => trivial
  | true => exact guarded_removeCacheItem _ _

theorem guarded_flushBlock (r : ItemRef) (key : BlockKey) :
    (flushBlock pf r key).Guarded requires Free := by
  unfold flushBlock
  refine guarded_perform_bind trivial fun released => ?_
  split
  next => trivial
  next =>
    refine guarded_perform_bind trivial fun block => ?_
    split
    next => trivial
    next =>
      refine guarded_perform_bind trivial fun admission => ?_
      cases admission with
      | skip => trivial
      | delete => exact guarded_deleteBlock r key
      | flush =>
          refine guarded_perform_bind trivial fun block => ?_
          refine guarded_perform_bind trivial fun whole => ?_
          split
          next => exact guarded_deleteBlock r key
          next => exact andThen (guarded_flushBlockSegments r _) fun _ => trivial

theorem guarded_processEvictedMemBlocks (keys : List BlockKey) :
    (processEvictedMemBlocks pf keys).Guarded requires Free := by
  refine guarded_forEach requires_of_free trivial fun key => ?_
  unfold processEvictedMemBlock
  refine guarded_perform_bind trivial fun found => ?_
  cases found with
  | none => trivial
  | some r =>
      refine guarded_perform_bind (Or.inl trivial) fun item => ?_
      split
      next => trivial
      next =>
        refine guarded_perform_bind trivial fun flush => ?_
        exact free_when (guarded_flushBlock r key)

theorem guarded_evictMemBlock : (evictMemBlock pf).Guarded requires Free :=
  guarded_perform_bind trivial fun evicted => guarded_processEvictedMemBlocks evicted

theorem guarded_writeBlock (r : ItemRef) (i : Nat) :
    (writeBlock pf r i).Guarded requires Free := by
  unfold writeBlock
  refine guarded_perform_bind trivial fun location => ?_
  cases location with
  | none => trivial
  | mem =>
      refine guarded_perform_bind trivial fun aligned => ?_
      split
      next => trivial
      next =>
        refine andThen (free_retry ?_ guarded_evictMemBlock _) fun found => ?_
        · exact guarded_perform trivial fun _ => trivial
        cases found with
        | none => trivial
        | some slices => exact guarded_perform_bind trivial fun _ => trivial
  | disk =>
      refine andThen guarded_allocDiskBlock fun found => ?_
      cases found with
      | none => trivial
      | some id => exact guarded_writeVisible r i id

theorem guarded_writeCacheItem (id : CacheId) (cacheKey : CacheKey) (buf : IOBuf)
    (options : Option WriteOptions) :
    (writeCacheItem pf id cacheKey buf options).Guarded requires Free := by
  unfold writeCacheItem
  refine andThen (free_retry ?_ guarded_evictMemBlock _) fun found => ?_
  · exact guarded_perform trivial fun _ => trivial
  cases found with
  | none => exact guarded_undefined
  | some r =>
      refine andThen (guarded_forUntil requires_of_free trivial (guarded_writeBlock r)) fun st => ?_
      split
      next =>
        refine andThen (free_when guarded_undefined) fun _ => ?_
        exact guarded_perform_bind trivial fun _ => trivial
      next => trivial

theorem guarded_set (cacheKey : CacheKey) (buf : IOBuf) (options : Option WriteOptions) :
    (Concurrent.set pf cacheKey buf options).Guarded requires Free := by
  unfold Concurrent.set
  split
  next => trivial
  next =>
    refine guarded_perform_bind trivial fun busy => ?_
    split
    next => trivial
    next =>
      refine guarded_perform_bind trivial fun found => ?_
      cases found with
      | none => exact guarded_writeCacheItem _ _ _ _
      | some r =>
          dsimp only
          split
          next =>
            refine Guarded.mono (guarded_unlink fun _ => guarded_writeCacheItem _ _ _ _) ?_
            exact Or.inr
          next => exact Or.inl trivial

theorem guarded_remove (cacheKey : CacheKey) :
    (Concurrent.remove pf cacheKey).Guarded requires Free := by
  unfold Concurrent.remove
  refine guarded_perform_bind trivial fun found => ?_
  cases found with
  | none => trivial
  | some r =>
      refine guarded_perform_bind (Or.inl trivial) fun item => ?_
      split
      next => trivial
      next =>
        refine guarded_perform_bind trivial fun released => ?_
        cases released with
        | false => trivial
        | true => exact guarded_unlink fun _ => trivial

/-- The calls keep to it. -/
theorem guarded_thread (c : Call) : (c.thread pf).Guarded requires Free := by
  cases c with
  | set cacheKey buf options => exact andThen (guarded_set _ _ _) fun _ => trivial
  | remove cacheKey => exact andThen (guarded_remove _) fun _ => trivial
  | evictMem keys => exact andThen (guarded_processEvictedMemBlocks _) fun _ => trivial
  | evictDisk ids => exact andThen (guarded_processEvictedDiskItems _) fun _ => trivial

end Guarded

/-! ## What a set has done when it returns -/

/-- Only the insertion of the item leads to a result that is not an error. -/
def Inserts (id : CacheId) (e : Atom) (st : Status) : Prop :=
  st.ok = true → ∃ r, e = .insert id r

/-- The same of the calls: of the results only those of the sets matter. -/
def Accounts (pf : Platform) (e : Atom) (result : Call × Option Status) : Prop :=
  ∀ cacheKey buf options st, result = (.set cacheKey buf options, some st) →
    Inserts (pf.cachekey2id cacheKey) e st

/-- Not the result of a set that has succeeded. -/
def Plain (result : Call × Option Status) : Prop :=
  ∀ cacheKey buf options st, result = (.set cacheKey buf options, some st) → st.ok = false

section Ends

variable {pf : Platform} {id : CacheId} {cacheKey : CacheKey} {buf : IOBuf}
  {options : Option WriteOptions}

theorem inserts_of_fail (e : Atom) (st : Status) (h : st.ok = false) : Inserts id e st := by
  intro hok
  rw [h] at hok
  cases hok

theorem ends_writeCacheItem {last : Status → Prop} (hlast : ∀ st, st.ok = false → last st) :
    (writeCacheItem pf id cacheKey buf options).Ends (Inserts id) last := by
  unfold writeCacheItem
  refine Ends.bind inserts_of_fail hlast fun found last hlast => ?_
  cases found with
  | none => exact fun a => a.elim
  | some r =>
      refine Ends.bind inserts_of_fail hlast fun st last hlast => ?_
      split
      next =>
        refine Ends.bind inserts_of_fail hlast fun _ last hlast => ?_
        intro _ _
        exact ⟨r, rfl⟩
      next hfail => exact hlast st (by simpa using hfail)

theorem ends_set : (Concurrent.set pf cacheKey buf options).Ends
    (Inserts (pf.cachekey2id cacheKey)) (fun st => st.ok = false) := by
  unfold Concurrent.set
  split
  next => exact rfl
  next =>
    refine Ends.bind inserts_of_fail (fun _ h => h) fun busy last hlast => ?_
    split
    next => exact hlast _ rfl
    next =>
      refine Ends.bind inserts_of_fail hlast fun found last hlast => ?_
      cases found with
      | none => exact ends_writeCacheItem hlast
      | some r =>
          dsimp only
          split
          next => exact Ends.bind inserts_of_fail hlast fun _ last hlast => ends_writeCacheItem hlast
          next => exact hlast _ rfl

theorem ends_thread (c : Call) : (c.thread pf).Ends (Accounts pf) Plain := by
  have hplain : ∀ (e : Atom) (result : Call × Option Status), Plain result → Accounts pf e result :=
    fun e result h cacheKey buf options st heq => inserts_of_fail e st (h cacheKey buf options st heq)
  cases c with
  | set cacheKey buf options =>
      refine Ends.map (Ends.mono (@ends_set pf cacheKey buf options) ?_ ?_)
      · rintro e st h _ _ _ _ ⟨⟩
        exact h
      · rintro st h _ _ _ _ ⟨⟩
        exact h
  | remove | evictMem | evictDisk =>
      refine Ends.bind hplain (fun _ h => h) fun _ last hlast => hlast _ ?_
      intro _ _ _ _ heq
      cases heq

end Ends

/-! ## What an unlinking takes out -/

/-- The item that an operation is about to unlink is in the index, if anything is under the id. -/
def Current (s : Shared) : Option Atom → Prop
  | some (.remove id r) => s.index id = none ∨ s.index id = some r
  | _ => True

/-- A step that does not set the stage for the removal of a newer item: when an item is marked as
released, no other item is in the index under its id, and when an item is inserted, no other
operation is about to unlink another one by the same id. -/
def Orderly (p : Flight) : Move → Prop
  | .act _ (.setReleased id r) true | .act _ (.releaseIfEmpty id r) true =>
      p.shared.index id = none ∨ p.shared.index id = some r
  | .act t (.insert id r) _ => ∀ t' m r', t' ≠ t → p.threads t' = some m →
      m.head = some (.remove id r') → r' = r
  | _ => True

/-- What is in the index stays there, unless the step inserts another item, or unlinks this one
for an operation that has found it. -/
def Lasting (p : Flight) (move : Move) (q : Flight) : Prop :=
  ∀ id r, p.shared.index id = some r → q.shared.index id = some r ∨
    (∃ t r', move = .act t (.insert id r') ()) ∨ ∃ t, move = .act t (.remove id r) ()

/-- No operation in flight can take out an item that is newer than its own. -/
def Secure (pf : Platform) (p : Flight) : Prop := ∀ move q, Step pf move p q → Lasting p move q

/-- An item that has been inserted is in the index until another one is inserted or this one is
unlinked for an operation that has found it. -/
def Kept (past : List (Flight × Move)) (p : Flight) : Prop :=
  ∀ after p₀ before t id r, past = after ++ (p₀, .act t (.insert id r) ()) :: before →
    p.shared.index id = some r ∨ (∃ x ∈ after, ∃ t r', x.2 = .act t (.insert id r') ()) ∨
      ∃ x ∈ after, ∃ t, x.2 = .act t (.remove id r) ()

/-- The last thing that a set does before it returns OK is to insert an item. -/
def Returns (pf : Platform) (past : List (Flight × Move)) : Prop :=
  ∀ after p₀ before t cacheKey buf options st,
    past = after ++ (p₀, .exit t (.set cacheKey buf options, some st)) :: before → st.ok = true →
      ∃ r, latest t before = some (.act t (.insert (pf.cachekey2id cacheKey) r) ())

section Runs

variable {pf : Platform} {p q : Flight} {move : Move} {past : List (Flight × Move)}

/-- Only the two actions on the index change it. -/
theorem effect_index {flags : Flags} {e : Atom} {i : Input} {s s' : Shared} {a : e.Answer}
    (h : effect flags e i s = some (a, s')) : s'.index = s.index ∨
      (∃ id r, e = .insert id r ∧ s'.index = Function.update s.index id (some r)) ∨
      ∃ id r, e = .remove id r ∧ s'.index = Function.update s.index id none := by
  cases e with
  | insert id r =>
      cases h
      exact Or.inr (Or.inl ⟨id, r, rfl, rfl⟩)
  | remove id r =>
      cases h
      exact Or.inr (Or.inr ⟨id, r, rfl, rfl⟩)
  | getBlock r i =>
      obtain ⟨b, _, hb⟩ := Option.map_eq_some_iff.mp h
      cases hb
      exact Or.inl rfl
  | newCacheItem cacheKey size ttlSeconds =>
      unfold effect at h
      dsimp only at h
      split at h
      next =>
        cases h
        exact Or.inl rfl
      next =>
        cases h
        exact Or.inl rfl
  | undefined => cases h
  | _ =>
      cases h
      exact Or.inl rfl

theorem current_of_free {s : Shared} {o : Option Atom} (h : Free o) : Current s o := by
  unfold Free at h
  split at h
  next => exact h.elim
  next hne =>
    unfold Current
    split
    next id r => exact absurd rfl (hne id r)
    next => trivial

/-- An orderly step leaves the operations with what they rely on. -/
theorem relies_step (hstep : Step pf move p q) (horderly : Orderly p move)
    (h : p.Relies requires Current) : q.Relies requires Current := by
  refine hstep.relies (fun c s => (guarded_thread c).mono current_of_free) ?_ ?_ h
  · rintro t e a rfl o ho
    cases hstep with
    | act hact heffect =>
        unfold requires at ho
        split at ho
        next id r =>
          rcases ho with hfree | rfl
          · exact current_of_free hfree
          · obtain ⟨hfound, rfl⟩ := Prod.mk.inj (Option.some.inj heffect)
            exact Or.inr hfound
        next id r =>
          subst ho
          obtain ⟨_, rfl⟩ := Prod.mk.inj (Option.some.inj heffect)
          exact horderly
        next id r =>
          subst ho
          obtain ⟨_, rfl⟩ := Prod.mk.inj (Option.some.inj heffect)
          exact horderly
        next => exact current_of_free ho
  · rintro t e a rfl t' m hne hm hcurrent
    cases hstep with
    | act hact heffect =>
        unfold Current at hcurrent ⊢
        split
        next id' r' hhead =>
          rw [hhead] at hcurrent
          rcases effect_index heffect with hsame | ⟨id, r, rfl, hinsert⟩ | ⟨id, r, rfl, hremove⟩
          · rw [hsame]
            exact hcurrent
          · rw [hinsert, Function.update_apply]
            split
            next heq =>
              subst heq
              exact Or.inr (congrArg some (horderly t' m r' hne hm hhead).symm)
            next => exact hcurrent
          · rw [hremove, Function.update_apply]
            split
            next => exact Or.inl rfl
            next => exact hcurrent
        next => trivial

/-- Operations whose items are current take out no newer ones. -/
theorem secure_of_relies (h : p.Relies requires Current) : Secure pf p := by
  intro move q hstep id r hfound
  cases hstep with
  | start | exit => exact Or.inl hfound
  | @act _ t e next i a s hact heffect =>
      rcases effect_index heffect with hsame | ⟨id', r', rfl, hinsert⟩ | ⟨id', r', rfl, hremove⟩
      · refine Or.inl ?_
        dsimp only
        rw [hsame]
        exact hfound
      · by_cases hid : id = id'
        · subst hid
          exact Or.inr (Or.inl ⟨t, r', rfl⟩)
        · refine Or.inl ?_
          dsimp only
          rw [hinsert, Function.update_of_ne hid]
          exact hfound
      · by_cases hid : id = id'
        · subst hid
          have hcurrent : p.shared.index id = none ∨ p.shared.index id = some r' :=
            (h t _ hact).head
          rw [hfound] at hcurrent
          rcases hcurrent with hnone | hsame
          · cases hnone
          · cases hsame
            exact Or.inr (Or.inr ⟨t, rfl⟩)
        · refine Or.inl ?_
          dsimp only
          rw [hremove, Function.update_of_ne hid]
          exact hfound

/-- Whoever is about to unlink an item may do so in the next step. -/
theorem Secure.current (h : Secure pf p) {t : Nat} {m : Op (Call × Option Status)}
    (hm : p.threads t = some m) : Current p.shared m.head := by
  unfold Current
  split
  next id r hhead =>
    cases m with
    | done => cases hhead
    | act e next =>
        cases hhead
        cases hfound : p.shared.index id with
        | none => exact Or.inl rfl
        | some r' =>
            have hstep : Step pf (.act t (.remove id r) ()) p _ :=
              .act (i := .refusing) hm rfl
            rcases h _ _ hstep id r' hfound with hkept | ⟨_, _, hinsert⟩ | ⟨_, hremove⟩
            · cases (Function.update_self ..).symm.trans hkept
            · cases hinsert
            · cases hremove
              exact Or.inr rfl
  next => trivial

/-- Every thread keeps to what the answers require, in every run. -/
theorem keeps_of_run (h : Run pf past p) : p.Relies requires fun _ _ => True := by
  induction h with
  | init =>
      intro t m hm
      cases hm
  | step _ hstep ih =>
      exact hstep.relies (fun c s => (guarded_thread c).mono fun _ => trivial)
        (fun _ _ _ _ _ _ => trivial) (fun _ _ _ _ _ _ _ _ _ => trivial) ih

/-- A step after which no newer item can be taken out has been orderly. -/
theorem orderly_of_secure (hkeeps : p.Relies requires fun _ _ => True) (hstep : Step pf move p q)
    (h : Secure pf q) : Orderly p move := by
  cases hstep with
  | start | exit => trivial
  | @act _ t e next i a s hact heffect =>
      have hnext := h.current (Function.update_self t (some (next a)) p.threads)
      have hrequired := ((hkeeps t _ hact).2 a).head
      unfold Orderly
      split
      next id r heq =>
        cases heq
        obtain ⟨_, rfl⟩ := Prod.mk.inj (Option.some.inj heffect)
        rwa [show (next true).head = some (.remove id r) from hrequired] at hnext
      next id r heq =>
        cases heq
        obtain ⟨_, rfl⟩ := Prod.mk.inj (Option.some.inj heffect)
        rwa [show (next true).head = some (.remove id r) from hrequired] at hnext
      next id r _ heq =>
        cases heq
        intro t' m r' hne hm hhead
        obtain ⟨_, rfl⟩ := Prod.mk.inj (Option.some.inj heffect)
        have hother := h.current ((Function.update_of_ne hne _ _).trans hm)
        rw [hhead] at hother
        have hnew : Function.update p.shared.index id (some r) id = some r := Function.update_self ..
        rcases hother with hnone | hsame
        · cases hnone.symm.trans hnew
        · exact Option.some.inj (hsame.symm.trans hnew)
      next => trivial

/-- What is required of the items is true after orderly steps. -/
theorem relies_of_run (h : Run pf past p) (horderly : ∀ x ∈ past, Orderly x.1 x.2) :
    p.Relies requires Current := by
  induction h with
  | init =>
      intro t m hm
      cases hm
  | step _ hstep ih =>
      refine relies_step hstep (horderly _ List.mem_cons_self) (ih fun x hx => ?_)
      exact horderly x (List.mem_cons_of_mem _ hx)

/-- The states of a run have been reached by runs. -/
theorem secure_of_run (h : Run pf past p) (horderly : ∀ x ∈ past, Orderly x.1 x.2) :
    (∀ x ∈ past, Secure pf x.1) ∧ Secure pf p := by
  refine ⟨?_, secure_of_relies (relies_of_run h horderly)⟩
  induction h with
  | init =>
      intro x hx
      cases hx
  | step hrun _ ih =>
      have hpast := fun x hx => horderly x (List.mem_cons_of_mem _ hx)
      intro x hx
      rcases List.mem_cons.mp hx with rfl | hx
      · exact secure_of_relies (relies_of_run hrun hpast)
      · exact ih hpast x hx

theorem orderly_of_run (h : Run pf past p) (hpast : ∀ x ∈ past, Secure pf x.1) (hp : Secure pf p) :
    ∀ x ∈ past, Orderly x.1 x.2 := by
  induction h with
  | init =>
      intro x hx
      cases hx
  | step hrun hstep ih =>
      intro x hx
      rcases List.mem_cons.mp hx with rfl | hx
      · exact orderly_of_secure (keeps_of_run hrun) hstep hp
      · refine ih (fun y hy => hpast y (List.mem_cons_of_mem _ hy)) ?_ x hx
        exact hpast _ List.mem_cons_self

theorem kept_of_run (h : Run pf past p) (horderly : ∀ x ∈ past, Orderly x.1 x.2) : Kept past p := by
  induction h with
  | init =>
      intro after p₀ before t id r heq
      cases List.append_eq_nil_iff.mp heq.symm with
      | intro _ hcons => cases hcons
  | @step past p q move hrun hstep ih =>
      have hpast := fun x hx => horderly x (List.mem_cons_of_mem _ hx)
      intro after p₀ before t id r heq
      rcases List.cons_eq_append_iff.mp heq with ⟨rfl, hcons⟩ | ⟨rest, rfl, hrest⟩
      · cases hcons
        cases hstep with
        | act hact heffect =>
            obtain ⟨_, rfl⟩ := Prod.mk.inj (Option.some.inj heffect)
            exact Or.inl (Function.update_self ..)
      · rcases ih hpast rest p₀ before t id r hrest with hkept | ⟨x, hx, hinsert⟩ | ⟨x, hx, hremove⟩
        · rcases secure_of_relies (relies_of_run hrun hpast) move q hstep id r hkept with
            hkept | hinsert | hremove
          · exact Or.inl hkept
          · exact Or.inr (Or.inl ⟨_, List.mem_cons_self, hinsert⟩)
          · exact Or.inr (Or.inr ⟨_, List.mem_cons_self, hremove⟩)
        · exact Or.inr (Or.inl ⟨x, List.mem_cons_of_mem _ hx, hinsert⟩)
        · exact Or.inr (Or.inr ⟨x, List.mem_cons_of_mem _ hx, hremove⟩)

theorem returns_of_run (h : Run pf past p) : Returns pf past := by
  induction h with
  | init =>
      intro after p₀ before t cacheKey buf options st heq
      cases List.append_eq_nil_iff.mp heq.symm with
      | intro _ hcons => cases hcons
  | @step past p q move hrun hstep ih =>
      intro after p₀ before t cacheKey buf options st heq hok
      rcases List.cons_eq_append_iff.mp heq with ⟨rfl, hcons⟩ | ⟨rest, rfl, hrest⟩
      · cases hcons
        cases hstep with
        | exit hdone =>
            have hends := hrun.known ends_thread t _ hdone
            cases hlatest : latest t past with
            | none =>
                rw [hlatest] at hends
                have hplain := hends cacheKey buf options st rfl
                rw [hok] at hplain
                cases hplain
            | some last =>
                have hthread := latest_thread hlatest
                rw [hlatest] at hends
                cases last with
                | act t' e a =>
                    obtain ⟨r, rfl⟩ := hends cacheKey buf options st rfl hok
                    cases hthread
                    exact ⟨r, rfl⟩
                | start | exit =>
                    have hplain := hends cacheKey buf options st rfl
                    rw [hok] at hplain
                    cases hplain
      · exact ih rest p₀ before t cacheKey buf options st hrest hok

end Runs

/-- In a run all steps are orderly if and only if in none of its states an operation can take out
an item that is newer than its own. Then what a set has inserted stays in the index until another
item is inserted, or an operation unlinks it that has found it; and a set that returns OK has
inserted its item. -/
theorem newer_items_kept {pf : Platform} {past : List (Flight × Move)} {p : Flight}
    (h : Run pf past p) :
    ((∀ x ∈ past, Orderly x.1 x.2) ↔ (∀ x ∈ past, Secure pf x.1) ∧ Secure pf p) ∧
      ((∀ x ∈ past, Orderly x.1 x.2) → Kept past p) ∧ Returns pf past := by
  refine ⟨⟨secure_of_run h, ?_⟩, kept_of_run h, returns_of_run h⟩
  rintro ⟨hpast, hp⟩
  exact orderly_of_run h hpast hp

/-- An object with a block on disk; a disk eviction finds it and clears its disk blocks; a set
replaces it; and the eviction finds that the old item is empty. -/
def race : List (Command Call Input) :=
  .call 0 (.set [1] [9] none) :: List.replicate 9 (.go 0 (.granting ⟨0, 0⟩)) ++
    .call 1 (.evictDisk [1]) :: List.replicate 2 (.go 1 .refusing) ++
    .call 2 (.set [1] [8] none) :: List.replicate 11 (.go 2 (.granting ⟨0, 1⟩)) ++
    [.go 1 .refusing]

/-- The set has returned OK, and the eviction is about to unlink the item it has found. -/
theorem race_run : ∃ past p, Run (.simple .small .reliable) past p ∧
    p.shared.index 1 = some 1 ∧
    (p.threads 2).bind Thread.result = some (.set [1] [8] none, some .OK) ∧
    (p.threads 1).bind Thread.head = some (.remove 1 0) := by
  have hrace : (race.foldlM (exec (fun _ => effect .small) (Call.thread (.simple .small .reliable)))
      ⟨Shared.init, fun _ => none⟩).any (fun p => decide (p.shared.index 1 = some 1 ∧
        (p.threads 2).bind Thread.result = some (.set [1] [8] none, some .OK) ∧
        (p.threads 1).bind Thread.head = some (.remove 1 0))) = true := by
    decide +kernel
  obtain ⟨p, hexec, hp⟩ := (Option.any_eq_true _ _).mp hrace
  have hnone : Calls (fun _ => True) ([] : List (Flight × Move)) := fun _ _ _ _ => trivial
  obtain ⟨past, _, hrun, _⟩ := Pool.Run.exec .init hnone race (fun _ _ _ => trivial) hexec
  exact ⟨past, p, hrun, of_decide_eq_true hp⟩

/-- One of the steps that lead there has not been orderly. -/
theorem newer_items_kept_race : ∃ past p, Run (.simple .small .reliable) past p ∧
    ¬ ∀ x ∈ past, Orderly x.1 x.2 := by
  obtain ⟨past, p, hrun, hindex, _, hhead⟩ := race_run
  refine ⟨past, p, hrun, fun horderly => ?_⟩
  obtain ⟨_, hsecure⟩ := (newer_items_kept hrun).1.mp horderly
  obtain ⟨m, hm, hhead⟩ := Option.bind_eq_some_iff.mp hhead
  have hcurrent := hsecure.current hm
  rw [hhead] at hcurrent
  rcases hcurrent with hnone | hsame
  · cases hnone.symm.trans hindex
  · cases hsame.symm.trans hindex

/-- The next step of the eviction takes out the item of the set that has returned OK. -/
theorem newer_item_lost : ∃ past p q, Run (.simple .small .reliable) past p ∧
    (p.threads 2).bind Thread.result = some (.set [1] [8] none, some .OK) ∧
    p.shared.index 1 = some 1 ∧
    Step (.simple .small .reliable) (.act 1 (.remove 1 0) ()) p q ∧ q.shared.index 1 = none ∧
    ¬ Lasting p (.act 1 (.remove 1 0) ()) q := by
  obtain ⟨past, p, hrun, hindex, hresult, hhead⟩ := race_run
  obtain ⟨m, hm, hhead⟩ := Option.bind_eq_some_iff.mp hhead
  cases m with
  | done => cases hhead
  | act e next =>
      cases hhead
      have hstep : Step (.simple .small .reliable) (.act 1 (.remove 1 0) ()) p _ :=
        .act (i := .refusing) hm rfl
      have hgone : Function.update p.shared.index 1 none 1 = none := Function.update_self ..
      refine ⟨past, p, _, hrun, hresult, hindex, hstep, hgone, fun hlasting => ?_⟩
      rcases hlasting 1 1 hindex with hkept | ⟨_, _, hinsert⟩ | ⟨_, hremove⟩
      · cases hgone.symm.trans hkept
      · cases hinsert
      · cases hremove

end Concurrent

end StarCache
