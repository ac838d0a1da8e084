import StarCache.DiskCache
import StarCache.MemCache
import Mathlib.Data.List.Induction

/-!
# Guards

What the lock steps of a call have locked, and a judgement for programs that have at most
one guard locked at a time. `Locks h m h'` says that `m`, when it starts with the guard `h`
locked, locks a guard only when none is locked, unlocks only the one that is, and ends with
`h'`. The two caches take no lock step.
-/

namespace StarCache

open Prog MachineInt

/-! ## Guards -/

/-- The mode of a guard, unique or shared, and its key. -/
abbrev Guard : Type := Bool × BlockKey

namespace LockStep

/-- The guards that are locked after a step, the latest first. -/
def after (guards : List Guard) : LockStep → List Guard
  | .lock unique key => (unique, key) :: guards
  | .unlock unique key => guards.erase (unique, key)

/-- The guards that are locked after some steps. -/
def held (steps : List LockStep) : List Guard := steps.foldl after []

/-- Nothing is locked before a lock, and before an unlock the guard itself and nothing else. -/
def Allowed (guards : List Guard) : LockStep → Prop
  | .lock _ _ => guards = []
  | .unlock unique key => guards = [(unique, key)]

/-- One step of an operation that has at most one guard locked. -/
def next : Option Guard → LockStep → Option (Option Guard)
  | none, .lock unique key => some (some (unique, key))
  | some guard, .unlock unique key => if guard = (unique, key) then some none else none
  | _, _ => none

/-- A run of such steps. -/
def replay (guard : Option Guard) (steps : List LockStep) : Option (Option Guard) :=
  steps.foldlM next guard

variable {g g' : Option Guard} {step : LockStep} {steps : List LockStep}

theorem replay_append (first second : List LockStep) :
    replay g (first ++ second) = (replay g first).bind fun g' => replay g' second := by
  unfold replay
  rw [List.foldlM_append]
  rfl

theorem next_spec (h : next g step = some g') :
    step.Allowed g.toList ∧ after g.toList step = g'.toList := by
  cases step with
  | lock unique key =>
      cases g with
      | none =>
          cases h
          exact ⟨rfl, rfl⟩
      | some guard => cases h
  | unlock unique key =>
      cases g with
      | none => cases h
      | some guard =>
          change (if guard = (unique, key) then some none else none) = some g' at h
          by_cases heq : guard = (unique, key)
          · rw [if_pos heq] at h
            cases h
            subst heq
            exact ⟨rfl, List.erase_cons_head ..⟩
          · rw [if_neg heq] at h
            cases h

/-- What a run has locked. -/
theorem held_of_replay (h : replay none steps = some g) : held steps = g.toList := by
  induction steps using List.reverseRecOn generalizing g with
  | nil =>
      cases h
      rfl
  | append_singleton steps step ih =>
      rw [replay_append] at h
      obtain ⟨g', hfirst, hlast⟩ := Option.bind_eq_some_iff.mp h
      have hnext : next g' step = some g := by simpa [replay] using hlast
      unfold held at ih ⊢
      rw [List.foldl_append, ih hfirst]
      exact (next_spec hnext).2

/-- Every step of a run is allowed where it is taken. -/
theorem allowed_of_replay {before rest : List LockStep}
    (h : replay none (before ++ step :: rest) = some g) : step.Allowed (held before) := by
  rw [replay_append] at h
  obtain ⟨g', hfirst, hrest⟩ := Option.bind_eq_some_iff.mp h
  unfold replay at hrest
  rw [List.foldlM_cons] at hrest
  obtain ⟨g'', hnext, _⟩ := Option.bind_eq_some_iff.mp hrest
  rw [held_of_replay hfirst]
  exact (next_spec hnext).1

end LockStep

/-! ## Programs -/

/-- The program starts with the guard `h` locked and ends with `h'`. -/
def Locks {α : Type} (h : Option Guard) (m : Prog State α) (h' : Option Guard) : Prop :=
  ∀ s a t, m s = some (a, t) →
    ∃ steps, t.locks = s.locks ++ steps ∧ LockStep.replay h steps = some h'

section Rules

variable {α β γ : Type} {h h' h'' : Option Guard} {m : Prog State α} {f : α → Prog State β}
  {unique : Bool} {key : BlockKey}

/-- A program that takes no lock step. -/
theorem Locks.of_eq (hm : ∀ s a t, m s = some (a, t) → t.locks = s.locks) : Locks h m h := by
  intro s a t heq
  exact ⟨[], by rw [hm s a t heq, List.append_nil], rfl⟩

theorem Locks.bind (hm : Locks h m h') (hf : ∀ a, Locks h' (f a) h'') : Locks h (m >>= f) h'' := by
  intro s b u heq
  obtain ⟨a, t, hfirst, hrest⟩ := bind_eq_some.mp heq
  obtain ⟨first, ht, hreplay⟩ := hm s a t hfirst
  obtain ⟨rest, hu, hreplay'⟩ := hf a t b u hrest
  refine ⟨first ++ rest, by rw [hu, ht, List.append_assoc], ?_⟩
  rw [LockStep.replay_append, hreplay]
  exact hreplay'

theorem locks_lock : Locks none (lock unique key) (some (unique, key)) := by
  intro s a t heq
  cases heq
  exact ⟨[.lock unique key], rfl, rfl⟩

theorem locks_unlock : Locks (some (unique, key)) (unlock unique key) none := by
  intro s a t heq
  cases heq
  refine ⟨[.unlock unique key], rfl, ?_⟩
  simp [LockStep.replay, LockStep.next]

theorem locks_pure (a : α) : Locks h (pure a) h := .of_eq fun s b t heq => by
  cases heq
  rfl

theorem locks_undefined : Locks h (undefined : Prog State α) h' := by
  intro s a t heq
  cases heq

theorem locks_read : Locks h read h := .of_eq fun s a t heq => by
  cases heq
  rfl

theorem locks_modify {g : State → State} (hg : ∀ s, (g s).locks = s.locks) :
    Locks h (modify g) h := .of_eq fun s a t heq => by
  cases heq
  exact hg s

theorem locks_modifyGet {g : State → α × State} (hg : ∀ s, (g s).2.locks = s.locks) :
    Locks h (modifyGet g) h := .of_eq fun s a t heq => by
  have : g s = (a, t) := Option.some.inj heq
  rw [show t = (g s).2 by rw [this]]
  exact hg s

theorem locks_deref (o : Option α) : Locks h (deref o : Prog State α) h :=
  .of_eq fun s a t heq => by
    cases o with
    | none => cases heq
    | some b =>
        cases heq
        rfl

theorem locks_require (c : Prop) [Decidable c] : Locks h (require c) h :=
  .of_eq fun s a t heq => by
    unfold require at heq
    split at heq
    next =>
      cases heq
      rfl
    next => cases heq

theorem locks_zoom {τ : Type} {get : State → τ} {set : State → τ → State} {m : Prog τ α}
    (hset : ∀ s u, (set s u).locks = s.locks) : Locks h (zoom get set m) h :=
  .of_eq fun s a t heq => by
    unfold zoom at heq
    split at heq
    next => cases heq
    next =>
      cases heq
      exact hset _ _

theorem Locks.ite {c : Prop} [Decidable c] {m₁ m₂ : Prog State α} (h₁ : Locks h m₁ h')
    (h₂ : Locks h m₂ h') : Locks h (if c then m₁ else m₂) h' := by
  split
  · exact h₁
  · exact h₂

theorem Locks.when {c : Bool} {m : Prog State Unit} (hm : Locks h m h) : Locks h (when c m) h := by
  cases c with
  | true => exact hm
  | false => exact locks_pure ()

theorem Locks.forEach {body : γ → Prog State Unit} (hbody : ∀ x, Locks h (body x) h)
    (xs : List γ) : Locks h (forEach xs body) h := by
  induction xs with
  | nil => exact locks_pure ()
  | cons x rest ih => exact (hbody x).bind fun _ => ih

theorem Locks.forUntil {stop : β → Bool} {done : β} {body : γ → Prog State β}
    (hbody : ∀ x, Locks h (body x) h) (xs : List γ) : Locks h (forUntil stop done xs body) h := by
  induction xs with
  | nil => exact locks_pure done
  | cons x rest ih => exact (hbody x).bind fun b => .ite (locks_pure b) ih

theorem Locks.retry {attempt : Nat → Prog State (Option α)} {remedy : Prog State Unit}
    (hattempt : ∀ i, Locks h (attempt i) h) (hremedy : Locks h remedy h) (i n : Nat) :
    Locks h (retry attempt remedy i n) h := by
  induction n generalizing i with
  | zero => exact locks_pure none
  | succ n ih =>
      apply (hattempt i).bind
      intro found
      cases found with
      | some a => exact locks_pure (some a)
      | none => exact hremedy.bind fun _ => ih (i + 1)

end Rules

/-! ## What takes no lock -/

section Quiet

variable {pf : Platform} {g : Option Guard} {r : ItemRef} {i : Nat}

theorem locks_hold (x : Local) : Locks g (hold x) g := locks_modify fun _ => rfl

theorem locks_tick : Locks g tick g := locks_modifyGet fun _ => rfl

theorem locks_emit (e : Event) : Locks g (emit e) g := locks_modify fun _ => rfl

theorem locks_updateItem (f : CacheItem → CacheItem) : Locks g (updateItem r f) g :=
  locks_modify fun _ => rfl

theorem locks_getBlock : Locks g (getBlock r i) g :=
  locks_read.bind fun _ => locks_deref _

theorem locks_onDisk {α : Type} (m : Prog DiskSpaceManager α) : Locks g (onDisk m) g := by
  apply locks_zoom
  intro s diskSpace
  rfl

theorem locks_collect : Locks g (collect pf) g := by
  unfold collect
  apply Locks.bind
  · exact locks_modify fun _ => rfl
  intro _
  apply Locks.bind
  · exact locks_modify fun _ => rfl
  intro _
  apply locks_read.bind
  intro s
  apply Locks.bind
  · exact .forEach (fun id => locks_onDisk _) _
  intro _
  exact locks_modify fun _ => rfl

theorem Locks.scope {α : Type} {g' : Option Guard} {body : Prog State α} (hbody : Locks g body g') :
    Locks g (scope pf body) g' := by
  apply locks_read.bind
  intro s
  apply hbody.bind
  intro a
  apply Locks.bind
  · exact locks_modify fun _ => rfl
  intro _
  exact locks_collect.bind fun _ => locks_pure a

/-- An item changes, and the deleters run. -/
theorem locks_updateItem_collect (f : CacheItem → CacheItem) : Locks g (do
    updateItem r f
    collect pf) g := (locks_updateItem f).bind fun _ => locks_collect

theorem locks_setMemBlock (block : Option MemBlockItem) :
    Locks g (setMemBlock pf r i block) g := locks_updateItem_collect _

theorem locks_setDiskBlock (id : BlockId) : Locks g (setDiskBlock pf r i id) g :=
  locks_updateItem_collect _

theorem locks_clearBlock : Locks g (clearBlock pf r i) g := locks_updateItem_collect _

theorem locks_clearDiskBlocks : Locks g (clearDiskBlocks pf r) g :=
  locks_updateItem_collect _

theorem locks_releaseIfEmpty : Locks g (releaseIfEmpty r) g :=
  locks_read.bind fun _ => (locks_updateItem _).bind fun _ => locks_pure _

theorem locks_setPinned (pinned : Bool) : Locks g (setPinned r pinned) g :=
  locks_read.bind fun _ => (locks_updateItem _).bind fun _ => locks_pure _

theorem locks_setReleased (released : Bool) : Locks g (setReleased r released) g :=
  locks_read.bind fun _ => (locks_updateItem _).bind fun _ => locks_pure _

/-- The index changes, the change is recorded, and the deleters run. -/
theorem locks_index {f : State → State} (hf : ∀ s, (f s).locks = s.locks) (e : Event) :
    Locks g (do
      modify f
      emit e
      collect pf) g :=
  (locks_modify hf).bind fun _ => (locks_emit e).bind fun _ => locks_collect

theorem locks_indexInsert (id : CacheId) : Locks g (indexInsert pf id r) g := by
  apply locks_index
  intro s
  rfl

theorem locks_indexRemove (id : CacheId) : Locks g (indexRemove pf id r) g := by
  apply locks_index
  intro s
  rfl

end Quiet

/-! ## The caches -/

section Caches

variable {pf : Platform} {g : Option Guard}

namespace MemCache

theorem locks_newCacheItem (cacheKey : CacheKey) (size expireTime : Nat) (urgent : Bool) :
    Locks g (newCacheItem pf cacheKey size expireTime urgent) g := by
  apply locks_modifyGet
  intro s
  dsimp only
  split <;> rfl

theorem locks_newBlockSegment (offset size : Nat) (buf : IOBuf) (urgent : Bool) :
    Locks g (newBlockSegment pf offset size buf urgent) g := by
  apply locks_modifyGet
  intro s
  dsimp only
  split <;> rfl

theorem locks_writeBlock (block : MemBlockItem) (refs : List SegmentRef) :
    Locks g (writeBlock pf block refs) g := locks_read.bind fun _ => locks_deref _

theorem locks_evictTrack (key : BlockKey) (size : Nat) :
    Locks g (evictTrack pf key size) g := by
  apply Locks.bind
  · exact locks_modify fun _ => rfl
  intro _
  exact locks_emit _

theorem locks_evictUntrack (key : BlockKey) : Locks g (evictUntrack pf key) g :=
  locks_modify fun _ => rfl

theorem locks_evictTouch (key : BlockKey) (force : Bool) :
    Locks g (evictTouch pf key force) g := by
  apply locks_tick.bind
  intro n
  apply Locks.ite
  · exact locks_modifyGet fun _ => rfl
  · exact locks_pure none

theorem locks_evictRelease (handle : Option EvictionHandle) :
    Locks g (evictRelease handle) g := locks_modify fun _ => rfl

theorem locks_evict (size : Nat) : Locks g (evict size) g := by
  apply Locks.bind
  · exact locks_modifyGet fun _ => rfl
  intro keys
  exact (locks_emit _).bind fun _ => locks_pure keys

theorem locks_evictFor (key : BlockKey) (size : Nat) : Locks g (evictFor pf key size) g := by
  apply Locks.bind
  · exact locks_modifyGet fun _ => rfl
  intro keys
  exact (locks_emit _).bind fun _ => locks_pure keys

theorem locks_readBlock (key : BlockKey) (block : Option MemBlockItem) (offset : Int)
    (size : Nat) : Locks g (readBlock pf key block offset size) g := by
  cases block with
  | none => exact locks_pure []
  | some block =>
      apply Locks.ite
      · exact locks_pure []
      apply (locks_evictTouch key false).bind
      intro handle
      apply (locks_evictRelease handle).bind
      intro _
      exact locks_read.bind fun _ => locks_deref _

end MemCache

namespace BlockFile

theorem locks_alignIobuf (buf : IOBuf) : Locks g (alignIobuf pf buf) g := by
  apply locks_tick.bind
  intro n
  exact .ite (locks_pure _) (locks_pure none)

theorem locks_transferOut (pos : FilePos) (data : IOBuf) :
    Locks g (transferOut pf pos data) g := by
  apply locks_tick.bind
  intro n
  cases pf.env.pwrite n data.length with
  | error e => exact locks_pure _
  | ok count =>
      apply Locks.bind
      · exact locks_modify fun _ => rfl
      intro _
      exact locks_pure Status.OK

theorem locks_write (pos : FilePos) (buf : IOBuf) : Locks g (write pf pos buf) g := by
  apply locks_tick.bind
  intro n
  apply Locks.ite
  · exact locks_transferOut pos buf
  apply (locks_alignIobuf buf).bind
  intro data
  cases data with
  | none => exact locks_pure _
  | some data => exact locks_transferOut pos data

theorem locks_read (pos : FilePos) (size : Nat) : Locks g (read pf pos size) g := by
  apply locks_tick.bind
  intro n
  apply Locks.ite
  · exact locks_pure _
  cases pf.env.pread n (alignedSize pf.flags size) with
  | error e => exact locks_pure _
  | ok count =>
      apply Locks.ite
      · exact locks_pure _
      · exact StarCache.locks_read.bind fun _ => locks_pure _

end BlockFile

namespace DiskCache

theorem locks_locate (id : BlockId) (offset : Nat) : Locks g (locate pf id offset) g := by
  apply locks_read.bind
  intro s
  apply (locks_deref _).bind
  intro dir
  apply (locks_require _).bind
  intro _
  exact (locks_deref _).bind fun _ => locks_pure _

theorem locks_checksumLoop (size : Nat) (pieces : List ChecksumPiece) :
    Locks g (checksumLoop pf.flags size pieces) g :=
  (locks_require _).bind fun _ => locks_require _

theorem locks_updateBlockChecksum (id : BlockId) (seg : BlockSegment) :
    Locks g (updateBlockChecksum pf id seg) g := by
  apply (locks_checksumLoop _ _).bind
  intro _
  exact locks_modify fun _ => rfl

theorem locks_checkBlockChecksum (id : BlockId) (seg : BlockSegment) :
    Locks g (checkBlockChecksum pf id seg) g := by
  apply (locks_checksumLoop _ _).bind
  intro _
  exact locks_read.bind fun _ => locks_pure _

theorem locks_evictTrack (id : CacheId) (size : Nat) :
    Locks g (evictTrack pf id size) g := by
  apply Locks.bind
  · exact locks_modify fun _ => rfl
  intro _
  exact locks_emit _

theorem locks_evictUntrack (id : CacheId) : Locks g (evictUntrack pf id) g :=
  locks_modify fun _ => rfl

theorem locks_evictTouch (id : CacheId) (force : Bool) :
    Locks g (evictTouch pf id force) g := by
  apply locks_tick.bind
  intro n
  apply Locks.ite
  · exact locks_modifyGet fun _ => rfl
  · exact locks_pure none

theorem locks_evictRelease (handle : Option EvictionHandle) :
    Locks g (evictRelease handle) g := locks_modify fun _ => rfl

theorem locks_evictFor (id : CacheId) (size : Nat) : Locks g (evictFor pf id size) g := by
  apply Locks.bind
  · exact locks_modifyGet fun _ => rfl
  intro ids
  exact (locks_emit _).bind fun _ => locks_pure ids

theorem locks_newBlockItem : Locks g (newBlockItem pf) g := by
  apply (locks_onDisk _).bind
  intro found
  cases found with
  | none => exact locks_pure none
  | some id =>
      apply locks_tick.bind
      intro n
      apply Locks.bind
      · exact locks_modify fun _ => rfl
      intro _
      exact locks_pure (some id)

theorem locks_writeBlock (id : BlockId) (seg : BlockSegment) :
    Locks g (writeBlock pf id seg) g := by
  apply locks_read.bind
  intro s
  apply Locks.ite
  · exact locks_pure _
  apply Locks.ite
  · exact locks_pure _
  apply (Locks.when (locks_updateBlockChecksum id seg)).bind
  intro _
  exact (locks_locate id _).bind fun pos => BlockFile.locks_write pos _

theorem locks_readBlock (cacheId : CacheId) (id : BlockId) (offset size : Nat) :
    Locks g (readBlock pf cacheId id offset size) g := by
  apply locks_read.bind
  intro s
  apply Locks.ite
  · exact locks_pure _
  apply (locks_evictTouch cacheId false).bind
  intro handle
  apply (locks_evictRelease handle).bind
  intro _
  apply Locks.ite
  · exact locks_pure _
  apply (locks_locate id offset).bind
  intro pos
  apply (BlockFile.locks_read pos size).bind
  intro result
  apply Locks.ite
  · exact locks_pure result
  apply Locks.ite
  · apply (locks_checkBlockChecksum id _).bind
    intro same
    exact .ite (locks_pure _) (locks_pure _)
  · exact locks_pure _

end DiskCache

end Caches

end StarCache
