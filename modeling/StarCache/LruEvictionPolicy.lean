import StarCache.Utils.LruContainer

/-!
# The sharded eviction policy

`LruEvictionPolicy` over a `ShardedLRUContainer`. A key lives in the shard its
hash selects, and every operation but `evict` works on one shard.
-/

namespace StarCache

structure LruEvictionPolicy (K : Type) where
  shardCount : Nat
  shards : Nat → LRUContainer K

/-- What `touch` returns: an entry that stays out of reach of eviction until it
is released. -/
structure EvictionHandle where
  shard : Nat
  entry : Nat
deriving DecidableEq

namespace LruEvictionPolicy

variable {K : Type} [DecidableEq K]

def create [Inhabited K] (shardBits : Nat) : LruEvictionPolicy K :=
  ⟨2 ^ shardBits, fun _ => default⟩

variable (hash : K → Nat) (t : LruEvictionPolicy K)

def shard (key : K) : Nat := hash key &&& (t.shardCount - 1)

def setShard (i : Nat) (c : LRUContainer K) : LruEvictionPolicy K :=
  { t with shards := Function.update t.shards i c }

def add (key : K) (size : Nat) : LruEvictionPolicy K :=
  let r := (t.shards (t.shard hash key)).insert key size
  t.setShard (t.shard hash key) (r.2.release r.1)

def touch (key : K) : Option EvictionHandle × LruEvictionPolicy K :=
  let r := (t.shards (t.shard hash key)).lookup key
  (r.1.map fun e => ⟨t.shard hash key, e⟩, t.setShard (t.shard hash key) r.2)

def release (h : EvictionHandle) : LruEvictionPolicy K :=
  t.setShard h.shard ((t.shards h.shard).release h.entry)

/-- `Handle::~Handle` for a handle that may be null. -/
def releaseHandle : Option EvictionHandle → LruEvictionPolicy K
  | none => t
  | some h => t.release h

def remove (key : K) : LruEvictionPolicy K :=
  t.setShard (t.shard hash key) ((t.shards (t.shard hash key)).erase key)

def evictFor (key : K) (size : Nat) : List K × LruEvictionPolicy K :=
  let r := (t.shards (t.shard hash key)).evict size
  (r.1, t.setShard (t.shard hash key) r.2)

/-- The loop of `ShardedLRUContainer::evict` over the shards. -/
def evictShards (size : Nat) : List Nat → LruEvictionPolicy K → List K × LruEvictionPolicy K
  | [], t => ([], t)
  | i :: rest, t =>
      let r := (t.shards i).evict size
      let q := evictShards size rest (t.setShard i r.2)
      (r.1 ++ q.1, q.2)

def evict (size : Nat) : List K × LruEvictionPolicy K :=
  evictShards size (List.range t.shardCount) t

/-! ## The invariant over all shards -/

/-- The entries of shard `i` among the handles that callers hold. -/
def heldIn (out : List EvictionHandle) (i : Nat) : List Nat :=
  (out.filter (·.shard = i)).map (·.entry)

/-- Every shard is well formed and holds only keys that belong to it. -/
structure Inv (out : List EvictionHandle) : Prop where
  shard : ∀ i, (t.shards i).Inv (heldIn out i)
  home : ∀ i key, (t.shards i).Tracked key → t.shard hash key = i

def Tracked (key : K) : Prop := (t.shards (t.shard hash key)).Tracked key

instance (key : K) : Decidable (t.Tracked hash key) :=
  inferInstanceAs (Decidable ((t.shards (t.shard hash key)).Tracked key))

def Idle (key : K) : Prop := (t.shards (t.shard hash key)).Idle key

variable {hash t}

omit [DecidableEq K] in
theorem setShard_shards (i j : Nat) (c : LRUContainer K) :
    (t.setShard i c).shards j = if j = i then c else t.shards j := Function.update_apply ..

omit [DecidableEq K] in
@[simp] theorem shard_setShard (i : Nat) (c : LRUContainer K) (key : K) :
    (t.setShard i c).shard hash key = t.shard hash key := rfl

theorem Idle.tracked {key : K} (h : t.Idle hash key) : t.Tracked hash key :=
  LRUContainer.Idle.tracked h

theorem Inv.idle_of_tracked (h : t.Inv hash []) {key : K} (htracked : t.Tracked hash key) :
    t.Idle hash key :=
  (h.shard _).idle_of_tracked htracked

/-- Replacing one shard: the invariant, and what is tracked and idle, can be read
off the new shard alone. -/
theorem Inv.setShard {out out' : List EvictionHandle} (h : t.Inv hash out) {i : Nat}
    {c : LRUContainer K} (hc : c.Inv (heldIn out' i))
    (hout : ∀ j, j ≠ i → heldIn out' j = heldIn out j)
    (hhome : ∀ key, c.Tracked key → t.shard hash key = i) : (t.setShard i c).Inv hash out' := by
  refine ⟨fun j => ?_, fun j key hkey => ?_⟩
  · rw [setShard_shards]
    split
    next heq => exact heq ▸ hc
    next hne => exact hout j hne ▸ h.shard j
  · rw [shard_setShard]
    rw [setShard_shards] at hkey
    split at hkey
    next heq => exact heq ▸ hhome key hkey
    next => exact h.home j key hkey

omit [DecidableEq K] in
theorem tracked_setShard (i : Nat) (c : LRUContainer K) (key : K) :
    (t.setShard i c).Tracked hash key ↔
      if t.shard hash key = i then c.Tracked key else t.Tracked hash key := by
  unfold Tracked
  rw [shard_setShard, setShard_shards]
  split <;> rfl

theorem idle_setShard (i : Nat) (c : LRUContainer K) (key : K) :
    (t.setShard i c).Idle hash key ↔
      if t.shard hash key = i then c.Idle key else t.Idle hash key := by
  unfold Idle
  rw [shard_setShard, setShard_shards]
  split <;> rfl

namespace Inv

variable {out : List EvictionHandle} (h : t.Inv hash out)

include h

theorem add (key : K) (size : Nat) :
    (t.add hash key size).Inv hash out ∧
      (∀ key', (t.add hash key size).Tracked hash key' ↔ key' = key ∨ t.Tracked hash key') ∧
      ∀ key', (t.add hash key size).Idle hash key' ↔ key' = key ∨ t.Idle hash key' := by
  have hshard := h.shard (t.shard hash key)
  obtain ⟨hinv, htable⟩ := hshard.insert_release key size
  have htracked : ∀ key', (((t.shards (t.shard hash key)).insert key size).2.release
      ((t.shards (t.shard hash key)).insert key size).1).Tracked key' ↔
      key' = key ∨ (t.shards (t.shard hash key)).Tracked key' := by
    intro key'
    unfold LRUContainer.Tracked
    rw [htable, AList.mem_insert]
  refine ⟨h.setShard hinv (fun _ _ => rfl) ?_, ?_, ?_⟩
  · intro key' hkey'
    rcases (htracked key').mp hkey' with rfl | hkey'
    · rfl
    · exact h.home _ key' hkey'
  · intro key'
    unfold LruEvictionPolicy.add
    rw [tracked_setShard]
    split
    next heq => rw [htracked, Tracked, heq]
    next hne =>
      have : key' ≠ key := fun heq => hne (by rw [heq])
      simp [this]
  · intro key'
    unfold LruEvictionPolicy.add
    rw [idle_setShard]
    split
    next heq => rw [hshard.insert_release_idle, Idle, heq]
    next hne =>
      have : key' ≠ key := fun heq => hne (by rw [heq])
      simp [this]

theorem remove (key : K) :
    (t.remove hash key).Inv hash out ∧
      (∀ key', (t.remove hash key).Tracked hash key' ↔ t.Tracked hash key' ∧ key' ≠ key) ∧
      ∀ key', (t.remove hash key).Idle hash key' ↔ t.Idle hash key' ∧ key' ≠ key := by
  have hshard := h.shard (t.shard hash key)
  refine ⟨h.setShard (hshard.erase key).1 (fun _ _ => rfl) ?_, ?_, ?_⟩
  · intro key' hkey'
    exact h.home _ key' ((hshard.erase_tracked key key').mp hkey').1
  · intro key'
    unfold LruEvictionPolicy.remove
    rw [tracked_setShard]
    split
    next heq => rw [hshard.erase_tracked, Tracked, heq]
    next hne =>
      have : key' ≠ key := fun heq => hne (by rw [heq])
      simp [this]
  · intro key'
    unfold LruEvictionPolicy.remove
    rw [idle_setShard]
    split
    next heq => rw [hshard.erase_idle, Idle, heq]
    next hne =>
      have : key' ≠ key := fun heq => hne (by rw [heq])
      simp [this]

theorem touch_tracked (key key' : K) :
    (t.touch hash key).2.Tracked hash key' ↔ t.Tracked hash key' := by
  have hshard := h.shard (t.shard hash key)
  unfold LruEvictionPolicy.touch
  rw [tracked_setShard]
  split
  next heq =>
    rw [Tracked, heq]
    unfold LRUContainer.Tracked
    cases hr : ((t.shards (t.shard hash key)).lookup key).1 with
    | none => rw [(hshard.lookup_none hr).2.2.1]
    | some e => rw [(hshard.lookup_some hr).2.2]
  next => rfl

theorem touch_idle (key key' : K) :
    (t.touch hash key).2.Idle hash key' ↔ t.Idle hash key' ∧ key' ≠ key := by
  have hshard := h.shard (t.shard hash key)
  unfold LruEvictionPolicy.touch
  rw [idle_setShard]
  split
  next heq => rw [hshard.lookup_idle, Idle, heq]
  next hne =>
    have : key' ≠ key := fun heq => hne (by rw [heq])
    simp [this]

theorem touch_none {key : K} (hr : (t.touch hash key).1 = none) :
    ¬ t.Tracked hash key ∧ (t.touch hash key).2.Inv hash out := by
  have hshard := h.shard (t.shard hash key)
  have hr' : ((t.shards (t.shard hash key)).lookup key).1 = none := by
    simpa [LruEvictionPolicy.touch] using hr
  obtain ⟨hnot, hinv, htable, _⟩ := hshard.lookup_none hr'
  refine ⟨hnot, h.setShard hinv (fun _ _ => rfl) fun key' hkey' => ?_⟩
  apply h.home
  unfold LRUContainer.Tracked at hkey' ⊢
  rwa [htable] at hkey'

theorem touch_some {key : K} {handle : EvictionHandle}
    (hr : (t.touch hash key).1 = some handle) :
    t.Tracked hash key ∧ (t.touch hash key).2.Inv hash (handle :: out) := by
  have hshard := h.shard (t.shard hash key)
  obtain ⟨e, he, rfl⟩ : ∃ e, ((t.shards (t.shard hash key)).lookup key).1 = some e ∧
      (⟨t.shard hash key, e⟩ : EvictionHandle) = handle := by
    simpa [LruEvictionPolicy.touch] using hr
  obtain ⟨hk, hinv, htable⟩ := hshard.lookup_some he
  refine ⟨LRUContainer.Inv.tracked_iff key |>.mpr ⟨e, hk⟩, h.setShard ?_ ?_ ?_⟩
  · simpa [heldIn] using hinv
  · intro j hj
    simp [heldIn, Ne.symm hj]
  · intro key' hkey'
    apply h.home
    unfold LRUContainer.Tracked at hkey' ⊢
    rwa [htable] at hkey'

omit h in
theorem release {handle : EvictionHandle} (h : t.Inv hash (handle :: out)) :
    (t.release handle).Inv hash out ∧
      (∀ key, (t.release handle).Tracked hash key ↔ t.Tracked hash key) ∧
      ∀ key, t.Idle hash key → (t.release handle).Idle hash key := by
  have hshard := h.shard handle.shard
  have hheld : heldIn (handle :: out) handle.shard = handle.entry :: heldIn out handle.shard := by
    simp [heldIn]
  rw [hheld] at hshard
  have hrel := hshard.release List.mem_cons_self
  rw [List.erase_cons_head] at hrel
  obtain ⟨hinv, htable⟩ := hrel
  refine ⟨h.setShard hinv ?_ ?_, ?_, ?_⟩
  · intro j hj
    simp [heldIn, Ne.symm hj]
  · intro key hkey
    apply h.home
    unfold LRUContainer.Tracked at hkey ⊢
    rwa [htable] at hkey
  · intro key
    unfold LruEvictionPolicy.release
    rw [tracked_setShard]
    split
    next heq =>
      rw [Tracked, heq]
      unfold LRUContainer.Tracked
      rw [htable]
    next => rfl
  · intro key hidle
    unfold LruEvictionPolicy.release
    rw [idle_setShard]
    split
    next heq =>
      refine (hshard.release_idle List.mem_cons_self key).mpr (Or.inl ?_)
      unfold Idle at hidle
      rwa [heq] at hidle
    next => exact hidle

/-- What an eviction pass over one shard returns and leaves. -/
theorem evictShard (i size : Nat) :
    (t.setShard i ((t.shards i).evict size).2).Inv hash out ∧
      ((t.shards i).evict size).1.Nodup ∧
      (∀ key ∈ ((t.shards i).evict size).1, t.Idle hash key) ∧
      (∀ key, (t.setShard i ((t.shards i).evict size).2).Tracked hash key ↔
        t.Tracked hash key ∧ key ∉ ((t.shards i).evict size).1) ∧
      ∀ key, (t.setShard i ((t.shards i).evict size).2).Idle hash key ↔
        t.Idle hash key ∧ key ∉ ((t.shards i).evict size).1 := by
  have hshard := h.shard i
  obtain ⟨hinv, hnodup, hidle, _⟩ := hshard.evict size
  have hhome : ∀ key ∈ ((t.shards i).evict size).1, t.shard hash key = i :=
    fun key hkey => h.home i key (hidle key hkey).tracked
  refine ⟨h.setShard hinv (fun _ _ => rfl) ?_, hnodup, ?_, ?_, ?_⟩
  · intro key hkey
    exact h.home i key ((hshard.evict_tracked size key).mp hkey).1
  · intro key hkey
    rw [Idle, hhome key hkey]
    exact hidle key hkey
  · intro key
    rw [tracked_setShard]
    split
    next heq => rw [hshard.evict_tracked, Tracked, heq]
    next hne => exact ⟨fun ht => ⟨ht, fun hkey => hne (hhome key hkey)⟩, And.left⟩
  · intro key
    rw [idle_setShard]
    split
    next heq => rw [hshard.evict_idle, Idle, heq]
    next hne => exact ⟨fun ht => ⟨ht, fun hkey => hne (hhome key hkey)⟩, And.left⟩

omit h in
theorem evictShards (size : Nat) : ∀ (l : List Nat) (t : LruEvictionPolicy K), t.Inv hash out →
    (LruEvictionPolicy.evictShards size l t).2.Inv hash out ∧
      (LruEvictionPolicy.evictShards size l t).1.Nodup ∧
      (∀ key ∈ (LruEvictionPolicy.evictShards size l t).1, t.Idle hash key) ∧
      (∀ key, (LruEvictionPolicy.evictShards size l t).2.Tracked hash key ↔
        t.Tracked hash key ∧ key ∉ (LruEvictionPolicy.evictShards size l t).1) ∧
      ∀ key, (LruEvictionPolicy.evictShards size l t).2.Idle hash key ↔
        t.Idle hash key ∧ key ∉ (LruEvictionPolicy.evictShards size l t).1
  | [], t, h => by simp [LruEvictionPolicy.evictShards, h]
  | i :: rest, t, h => by
      obtain ⟨hinv, hnodup, hidle, htracked, hidle'⟩ := h.evictShard i size
      obtain ⟨rinv, rnodup, ridle, rtracked, ridle'⟩ := evictShards size rest _ hinv
      unfold LruEvictionPolicy.evictShards
      dsimp only
      refine ⟨rinv, ?_, ?_, ?_, ?_⟩
      · refine hnodup.append rnodup fun key hkey hrest => ?_
        exact ((hidle' key).mp (ridle key hrest)).2 hkey
      · intro key hkey
        rcases List.mem_append.mp hkey with hkey | hkey
        · exact hidle key hkey
        · exact ((hidle' key).mp (ridle key hkey)).1
      · intro key
        rw [rtracked, htracked, List.mem_append, not_or, and_assoc]
      · intro key
        rw [ridle', hidle', List.mem_append, not_or, and_assoc]

end Inv

theorem inv_create [Inhabited K] (shardBits : Nat) :
    (create shardBits : LruEvictionPolicy K).Inv hash [] := by
  refine ⟨fun _ => LRUContainer.inv_default, fun i key hkey => ?_⟩
  simp [create, LRUContainer.Tracked, default] at hkey

end LruEvictionPolicy

end StarCache
