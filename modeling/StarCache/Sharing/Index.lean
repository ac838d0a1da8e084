import StarCache.Sharing.Calls
import StarCache.Sharing.Texts

/-!
# The index and the marks along a run

The index comes to hold an item only when a set inserts it, and the item is then what the set was
called with. A mark that an item is released is never taken back.
-/

namespace StarCache

namespace Sharing

open Discipline Pool Function Shared

/-! ## One step -/

theorem writeDisk_kept (flags : Flags) (tr : Transfer) (s : Shared) (id : BlockId)
    (seg : BlockSegment) : (writeDisk flags tr s id seg).2.index = s.index ∧
      (writeDisk flags tr s id seg).2.items = s.items := by
  unfold writeDisk
  split
  · exact ⟨rfl, rfl⟩
  · dsimp only
    split
    · exact ⟨rfl, rfl⟩
    · exact ⟨rfl, rfl⟩

/-- The actions that change the index or an item. -/
def Atom.Moving : Atom → Prop
  | .insert _ _ | .erase _ | .newItem _ _ | .setReleased _ => True
  | _ => False

theorem effect_kept {flags : Flags} {t : Nat} {e : Atom} {input : Input} {s s' : Shared}
    {a : e.Answer} (h : effect flags t e input s = some (a, s')) (he : ¬ e.Moving) :
    s'.index = s.index ∧ s'.items = s.items := by
  have hgives : ∀ {s₁ : Shared}, Gives s s₁ → s₁.items = s.items := fun hs => by rw [hs.eq]
  cases e with
  | insert | erase | newItem | setReleased => exact absurd trivial he
  | dropItem r =>
      unfold effect at h
      dsimp only at h
      split at h
      · cases h
        exact ⟨(dropItem_clears ..).index, hgives (dropItem_gives ..)⟩
      · cases h
  | setDisk r i d =>
      cases d with
      | none =>
          unfold effect at h
          dsimp only at h
          split at h
          · cases h
            exact ⟨(clearDisk_clears ..).index, hgives (clearDisk_gives ..)⟩
          · cases h
      | some d =>
          unfold effect at h
          dsimp only at h
          split at h
          · cases h
            rw [publish_eq]
            exact ⟨rfl, rfl⟩
          · cases h
  | writeDisk d seg =>
      unfold effect at h
      dsimp only at h
      split at h
      · cases h
      · have hs' := congrArg Prod.snd (Option.some.inj h)
        rw [← show _ = s' from hs']
        exact writeDisk_kept ..
  | _ =>
      -- the others only look, or change something else
      unfold effect at h
      dsimp only at h
      repeat' split at h
      all_goals first
        | (cases h; exact ⟨rfl, rfl⟩)
        | cases h
        | (obtain ⟨x, _, heq⟩ := Option.map_eq_some_iff.mp h; cases heq; exact ⟨rfl, rfl⟩)

variable {su : Setup} {files : Nat → Nat → Nat → UInt8} {past : Past} {l : Move} {p q : Flight}
  {t : Nat} {id : CacheId} {r : ItemRef}

theorem link_index (flags : Flags) (s : Shared) (id id' : CacheId) (r : ItemRef) :
    (s.link flags id r).index id' = if id' = id then some r else s.index id' := by
  show update (s.clearIndex flags id).index id (some r) id' = _
  by_cases hid : id' = id
  · rw [hid, update_self, if_pos rfl]
  · rw [update_of_ne hid, if_neg hid, clearIndex_index, if_neg hid]

/-- How a step changes the index and the items. -/
inductive Turns (flags : Flags) (s : Shared) : Move → Shared → Prop
  | same {l : Move} {s' : Shared} (index : s'.index = s.index) (items : s'.items = s.items) :
      Turns flags s l s'
  | insert (t : Nat) (id : CacheId) (r : ItemRef) :
      Turns flags s (.act t (.insert id r) ()) (s.link flags id r)
  | erase (t : Nat) (id : CacheId) : Turns flags s (.act t (.erase id) ()) (s.clearIndex flags id)
  | newItem (t : Nat) (cacheKey : CacheKey) (value : IOBuf) :
      Turns flags s (.act t (.newItem cacheKey value) (some s.itemCount))
        (s.addItem t { cacheKey, value })
  | setReleased (t : Nat) (r : ItemRef) : Turns flags s (.act t (.setReleased r) ()) (s.release r)

theorem step_turns (hstep : CheckedStep su l p q) : Turns su.flags p.shared l q.shared := by
  cases hstep with
  | start | exit => exact .same rfl rfl
  | @act _ t e next i a s hact heffect =>
      by_cases he : e.Moving
      · cases e with
        | insert id r =>
            simp only [effect] at heffect
            split at heffect
            next =>
              cases heffect
              exact .insert t id r
            next => cases heffect
        | erase id =>
            cases heffect
            exact .erase t id
        | newItem cacheKey value =>
            simp only [effect] at heffect
            split at heffect
            next =>
              cases heffect
              exact .newItem t cacheKey value
            next =>
              cases heffect
              exact .same rfl rfl
        | setReleased r =>
            simp only [effect] at heffect
            split at heffect
            next => cases heffect
            next =>
              cases heffect
              exact .setReleased t r
        | _ => exact he.elim
      · obtain ⟨hindex, hitems⟩ := effect_kept heffect he
        exact .same hindex hitems

theorem clearIndex_items (flags : Flags) (s : Shared) (id : CacheId) :
    (s.clearIndex flags id).items = s.items := by
  have hgives : Gives s (s.clearIndex flags id) := clearIndex_gives ..
  rw [hgives.eq]

theorem inserted_shared (hstep : CheckedStep su (.act t (.insert id r) ()) p q) :
    q.shared = p.shared.link su.flags id r := by
  cases hstep with
  | act hact heffect =>
      simp only [effect] at heffect
      split at heffect
      next =>
        cases heffect
        rfl
      next => cases heffect

theorem made_shared {cacheKey : CacheKey} {value : IOBuf}
    (hstep : CheckedStep su (.act t (.newItem cacheKey value) (some r)) p q) :
    r = p.shared.itemCount ∧ q.shared = p.shared.addItem t { cacheKey, value } := by
  cases hstep with
  | act hact heffect =>
      simp only [effect] at heffect
      split at heffect
      next =>
        cases heffect
        exact ⟨rfl, rfl⟩
      next => cases heffect

/-- The index comes to hold an item only by an insertion. -/
theorem index_step (hstep : CheckedStep su l p q) (hq : q.shared.index id = some r)
    (hp : p.shared.index id ≠ some r) : ∃ t, l = .act t (.insert id r) () := by
  have hturns := step_turns hstep
  generalize q.shared = s at hturns hq
  cases hturns with
  | same hindex _ => exact absurd (hindex ▸ hq) hp
  | insert t id' r' =>
      rw [link_index] at hq
      split at hq
      next hid =>
        cases hq
        exact ⟨t, by rw [hid]⟩
      next => exact absurd hq hp
  | erase t id' =>
      rw [clearIndex_index] at hq
      split at hq
      next => cases hq
      next => exact absurd hq hp
  | newItem | setReleased => exact absurd hq hp

/-- An item stays released. -/
theorem released_step (hstep : CheckedStep su l p q) (hr : r < p.shared.itemCount)
    (hp : (p.shared.items r).released = true) : (q.shared.items r).released = true := by
  have hturns := step_turns hstep
  generalize q.shared = s at hturns ⊢
  cases hturns with
  | same _ hitems => rwa [hitems]
  | insert t id r' =>
      rw [link_items]
      split
      next heq => rwa [heq] at hp
      next => exact hp
  | erase t id => rwa [clearIndex_items]
  | newItem t cacheKey value => rwa [addItem_items_of_lt hr]
  | setReleased t r' =>
      show (update p.shared.items r' _ r).released = true
      by_cases hr' : r = r'
      · rw [hr', update_self]
      · rwa [update_of_ne hr']

/-- An item is linked by its insertion. -/
theorem linked_step (hstep : CheckedStep su l p q) (hq : (q.shared.items r).linked = true)
    (hp : (p.shared.items r).linked = false) : ∃ t id, l = .act t (.insert id r) () := by
  have hturns := step_turns hstep
  have hsame : (p.shared.items r).linked ≠ true := fun h => absurd (h.symm.trans hp) (by decide)
  generalize q.shared = s at hturns hq
  cases hturns with
  | same _ hitems => exact absurd (hitems ▸ hq) hsame
  | insert t id r' =>
      rw [link_items] at hq
      split at hq
      next heq => exact ⟨t, id, by rw [heq]⟩
      next => exact absurd hq hsame
  | erase t id => exact absurd (clearIndex_items .. ▸ hq) hsame
  | newItem t cacheKey value =>
      have hq : (update p.shared.items p.shared.itemCount { cacheKey, value } r).linked = true := hq
      by_cases hr : r = p.shared.itemCount
      · rw [hr, update_self] at hq
        cases hq
      · rw [update_of_ne hr] at hq
        exact absurd hq hsame
  | setReleased t r' =>
      have hq : (update p.shared.items r' _ r).linked = true := hq
      by_cases hr : r = r'
      · rw [hr, update_self] at hq
        exact absurd (hr ▸ hq) hsame
      · rw [update_of_ne hr] at hq
        exact absurd hq hsame

/-! ## Runs -/

section Runs

variable {after before after' before' : Past} {x x' : Flight} {t' : Nat} {cacheKey cacheKey' : CacheKey}
  {value value' : IOBuf} (hflags : Sized su.flags)

/-- A deed of a call, as a step of the run. -/
theorem deed_step {e : Atom} {a : e.Answer} (h : ⟨e, a⟩ ∈ deeds t past) : ∃ after before p,
    past = after ++ (p, .act t e a) :: before ∧ ∀ x ∈ after, ∀ c, x.2 ≠ .start t c := by
  obtain ⟨p, hp⟩ := mem_deeds h
  obtain ⟨after, before, hpast, hafter⟩ := since_split hp
  exact ⟨after, before, p, hpast, hafter⟩

include hflags

/-- What is in the index has been made. -/
theorem indexed_lt (hrun : CheckedRun su files past p) (hcalls : Calls Call.Proper past)
    (hindex : p.shared.index id = some r) : r < p.shared.itemCount := by
  obtain ⟨hinv, _⟩ := reaches_inv hflags hrun hcalls
  exact hinv.ledger.counted.lt r (indexed_alive hinv.ledger.counted hindex)

/-- An item is what it was made as. -/
theorem made_item
    (hrun : CheckedRun su files (after ++ (x, .act t (.newItem cacheKey value) (some r)) :: before) p)
    (hcalls : Calls Call.Proper (after ++ (x, .act t (.newItem cacheKey value) (some r)) :: before)) :
    r < p.shared.itemCount ∧ (p.shared.items r).cacheKey = cacheKey ∧
      (p.shared.items r).value = value := by
  refine reaches_follows hflags (P := fun s => r < s.itemCount ∧ (s.items r).cacheKey = cacheKey ∧
    (s.items r).value = value) (fun _ => lasting_isItem) hrun hcalls ?_
  obtain ⟨hcount, hshared⟩ := made_shared hrun.before.2
  rw [hshared, hcount]
  refine ⟨Nat.lt_succ_self _, ?_⟩
  show (update x.shared.items _ _ _).cacheKey = _ ∧ (update x.shared.items _ _ _).value = _
  rw [update_self]
  exact ⟨rfl, rfl⟩

/-- An item is made once. -/
theorem made_once (hrun : CheckedRun su files past p) (hcalls : Calls Call.Proper past)
    (h : past = after ++ (x, .act t (.newItem cacheKey value) (some r)) :: before)
    (h' : past = after' ++ (x', .act t' (.newItem cacheKey' value') (some r)) :: before') :
    t = t' ∧ after = after' := by
  -- the later of two would be made when the item is there already
  have hfirst : ∀ {a b a' b' : Past} {x x' : Flight} {t t' : Nat} {k k' : CacheKey} {v v' : IOBuf},
      past = a ++ (x, .act t (.newItem k v) (some r)) :: b →
        (x, .act t (.newItem k v) (some r)) :: b =
          a' ++ (x', .act t' (.newItem k' v') (some r)) :: b' → t = t' ∧ a' = [] := by
    intro a b a' b' x x' t t' k k' v v' hpast heq
    obtain ⟨hbefore, hstep⟩ := (hpast ▸ hrun).before
    have hcount := (made_shared hstep).1
    cases a' with
    | nil =>
        cases heq
        exact ⟨rfl, rfl⟩
    | cons y a' =>
        cases heq
        have hlt := (made_item hflags hbefore (hpast ▸ hcalls).before).1
        exact absurd hcount (Nat.ne_of_lt hlt)
  rcases List.append_eq_append_iff.mp (h.symm.trans h') with ⟨a, ha, heq⟩ | ⟨a, ha, heq⟩
  · obtain ⟨ht, rfl⟩ := hfirst h heq
    exact ⟨ht, by rw [ha, List.append_nil]⟩
  · obtain ⟨ht, rfl⟩ := hfirst h' heq
    exact ⟨ht.symm, by rw [ha, List.append_nil]⟩

/-- The index has not had the item of a call that has inserted nothing. -/
theorem made_unlinked (hrun : CheckedRun su files past p) (hcalls : Calls Call.Proper past)
    (hmade : ⟨.newItem cacheKey value, some r⟩ ∈ deeds t past) (hnone : NoInsert (deeds t past)) :
    (p.shared.items r).linked = false := by
  refine Bool.eq_false_iff.mpr fun hlinked => ?_
  obtain ⟨after, before, x, hpast, hafter⟩ := deed_step hmade
  have hnew : ((follower after p).shared.items r).linked = false := by
    obtain ⟨hcount, hshared⟩ := made_shared (hpast ▸ hrun).before.2
    rw [hshared, hcount]
    show (update x.shared.items _ _ _).linked = false
    rw [update_self]
  obtain ⟨later, ⟨y, l⟩, earlier, heq, _, hy, hlater⟩ := (hpast ▸ hrun).change_follower
    (P := fun p : Flight => (p.shared.items r).linked = true) (Bool.eq_false_iff.mp hnew) hlinked
  have hpast' := hpast.trans heq
  obtain ⟨hbefore, hstep⟩ := (hpast' ▸ hrun).before
  obtain ⟨t', id, rfl⟩ := linked_step hstep hlater (Bool.eq_false_iff.mpr hy)
  -- the one who has inserted it has made it, and so was this call
  obtain ⟨c, _, hmay⟩ := hbefore.may (fun c _ => call_obeys c) (hpast' ▸ hcalls).before hstep
  cases c with
  | read | remove => exact hmay.elim
  | set =>
      obtain ⟨_, hmade', _⟩ := hmay
      obtain ⟨recent, old, x', rfl, _⟩ := deed_step hmade'
      rw [← List.cons_append, ← List.append_assoc] at hpast'
      obtain ⟨rfl, rfl⟩ := made_once hflags hrun hcalls hpast hpast'
      rw [List.append_assoc, List.cons_append] at hpast'
      refine hnone id r ?_
      rw [hpast']
      exact step_deeds fun z hz => hafter z (List.mem_append_left _ hz)

/-- An insertion is that of a set that runs and has not inserted before, and of an item that the
set has made of its key and its value, and of which no block is missing. -/
theorem insert_step (hrun : CheckedRun su files past p) (hcalls : Calls Call.Proper past)
    (hstep : CheckedStep su (.act t (.insert id r) ()) p q) :
    ∃ cacheKey value overwrite, calling t past = some (.set cacheKey value overwrite) ∧
      id = su.cachekey2id cacheKey ∧ NoInsert (deeds t past) ∧ r < p.shared.itemCount ∧
      (p.shared.items r).cacheKey = cacheKey ∧ (p.shared.items r).value = value ∧
      p.shared.Complete su.flags r := by
  obtain ⟨c, hc, hmay⟩ := hrun.may (fun c _ => call_obeys c) hcalls hstep
  cases c with
  | read | remove => exact hmay.elim
  | set cacheKey value overwrite =>
      obtain ⟨hid, hmade, hnone⟩ := hmay
      have hunlinked := made_unlinked hflags hrun hcalls hmade hnone
      obtain ⟨after, before, x, rfl, _⟩ := deed_step hmade
      obtain ⟨hlt, hkey, hvalue⟩ := made_item hflags hrun hcalls
      refine ⟨cacheKey, value, overwrite, hc, hid, hnone, hlt, hkey, hvalue, ?_⟩
      have hcalls' : Calls Call.Proper ((p, .act t (.insert id r) ()) :: _) := hcalls.cons nofun
      obtain ⟨_, hguar⟩ := reaches_guar hflags hrun hcalls' hstep
      refine hguar.spares.complete r hlt hunlinked ?_
      rw [inserted_shared hstep, link_items, if_pos rfl]

def Shared.Released (s : Shared) (r : ItemRef) : Prop :=
  r < s.itemCount ∧ (s.items r).released = true

/-- From when an item is released, it is. -/
theorem released_kept (hrun : CheckedRun su files past p)
    (hcalls : Calls Call.Proper ((p, l) :: past)) (hstep : CheckedStep su l p q)
    (hp : p.shared.Released r) : q.shared.Released r := by
  obtain ⟨_, hguar⟩ := reaches_guar hflags hrun hcalls hstep
  exact ⟨Nat.lt_of_lt_of_le hp.1 hguar.itemCount, released_step hstep hp.1 hp.2⟩

/-- What a thread has seen or marked as released is released. -/
theorem ousted_released (hrun : CheckedRun su files past p) (hcalls : Calls Call.Proper past)
    (h : Ousted r (deeds t past) p.shared) : p.shared.Released r := by
  rcases h with h | h
  · obtain ⟨after, before, u, rfl, _⟩ := deed_step h
    obtain ⟨hbefore, hstep⟩ := hrun.before
    refine hrun.kept (released_kept hflags) hcalls ?_
    generalize follower after p = w at hstep
    cases hstep with
    | act hact heffect =>
        simp only [effect] at heffect
        split at heffect
        next => cases heffect
        next hheld =>
          obtain ⟨hinv, _⟩ := reaches_inv hflags hbefore hcalls.before
          exact ⟨hinv.ledger.counted.lt r hheld, congrArg Prod.fst (Option.some.inj heffect)⟩
  · obtain ⟨after, before, u, rfl, _⟩ := deed_step h
    obtain ⟨hbefore, hstep⟩ := hrun.before
    refine hrun.kept_follower (released_kept hflags) hcalls ?_
    generalize follower after p = w at hstep
    cases hstep with
    | act hact heffect =>
        simp only [effect] at heffect
        split at heffect
        next => cases heffect
        next hheld =>
          cases heffect
          obtain ⟨hinv, _⟩ := reaches_inv hflags hbefore hcalls.before
          refine ⟨hinv.ledger.counted.lt r hheld, ?_⟩
          show (update u.shared.items r _ r).released = true
          rw [update_self]

end Runs

end Sharing

end StarCache
