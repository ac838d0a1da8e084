import StarCache.LruEvictionPolicy
import StarCache.Common.Types

/-!
# Keys as raw memory

`LruEvictionPolicy` hands the bytes of a `BlockKey` object to the container, which hashes
them and compares them with `memcmp`. The last 4 of these 16 bytes are padding. The
other modules take keys with equal padding and compare the fields alone.
-/

namespace StarCache

/-! ## The bytes of a key -/

/-- A `BlockKey` object: its fields, and the padding the initialization leaves as it is. -/
structure BlockKeyObject where
  key : BlockKey
  padding : Vector UInt8 4
deriving DecidableEq

/-- The `width` lowest bytes of a number, the lowest first. -/
def littleEndian : Nat → Nat → List UInt8
  | 0, _ => []
  | width + 1, n => UInt8.ofNat n :: littleEndian width (n / 256)

/-- `makeup_key`. -/
def BlockKeyObject.makeupKey (id : BlockKeyObject) : List UInt8 :=
  littleEndian 8 id.key.cacheId.toNat ++ littleEndian 4 id.key.blockIndex ++ id.padding.toList

theorem BlockKeyObject.makeupKey_inj {a b : BlockKeyObject} (hkey : a.key = b.key) :
    a.makeupKey = b.makeupKey ↔ a.padding = b.padding := by
  unfold makeupKey
  rw [hkey, List.append_cancel_left_eq, Vector.toList_inj]

namespace LRUKey

def decodeFixed32 (b₀ b₁ b₂ b₃ : UInt8) : UInt32 :=
  b₀.toUInt32 ||| b₁.toUInt32 <<< 8 ||| b₂.toUInt32 <<< 16 ||| b₃.toUInt32 <<< 24

/-- The loop of `hash` and the switch over what is left. -/
def hashBytes (h : UInt32) : List UInt8 → UInt32
  | b₀ :: b₁ :: b₂ :: b₃ :: rest =>
      let h := (h + decodeFixed32 b₀ b₁ b₂ b₃) * 0xc6a4a793
      hashBytes (h ^^^ h >>> 16) rest
  | [b₀, b₁, b₂] =>
      let h := (h + b₂.toUInt32 <<< 16 + b₁.toUInt32 <<< 8 + b₀.toUInt32) * 0xc6a4a793
      h ^^^ h >>> 24
  | [b₀, b₁] =>
      let h := (h + b₁.toUInt32 <<< 8 + b₀.toUInt32) * 0xc6a4a793
      h ^^^ h >>> 24
  | [b₀] =>
      let h := (h + b₀.toUInt32) * 0xc6a4a793
      h ^^^ h >>> 24
  | [] => h

def hash (data : List UInt8) (seed : UInt32) : UInt32 :=
  hashBytes (seed ^^^ UInt32.ofNat data.length * 0xc6a4a793) data

end LRUKey

/-- The hash the sharded container takes. -/
def hashSlice (data : List UInt8) : Nat := (LRUKey.hash data 0).toNat

/-! ## Two keys and one entry -/

namespace LruEvictionPolicy

variable {K : Type} [DecidableEq K]

/-- The calls on `b` mean the entry that `add(a)` has made. -/
structure SameEntry (hash : K → Nat) (t : LruEvictionPolicy K) (a b : K) (size : Nat) : Prop where
  touch : ∃ handle, ((t.add hash a size).touch hash a).1 = some handle ∧
    ((t.add hash a size).touch hash b).1 = some handle
  remove : ¬ ((t.add hash a size).remove hash b).Tracked hash a
  /-- No key gets a second entry, and the entry of `a` is the new one. -/
  add : ∀ size', ((t.add hash a size).add hash b size').Tracked hash =
      (t.add hash a size).Tracked hash ∧
    (((t.add hash a size).add hash b size').touch hash a).1 ≠
      ((t.add hash a size).touch hash a).1
  evictFor : (t.add hash a size).shard hash b = (t.add hash a size).shard hash a

variable {hash : K → Nat} {t : LruEvictionPolicy K} {out : List EvictionHandle} {a b : K}

theorem touch_eq (key : K) : (t.touch hash key).1 =
    ((t.shards (t.shard hash key)).table.lookup key).map fun e => ⟨t.shard hash key, e⟩ := by
  unfold touch LRUContainer.lookup
  dsimp only
  cases (t.shards (t.shard hash key)).table.lookup key with
  | none => rfl
  | some e => rfl

/-- An entry serves one key. -/
theorem Inv.touch_unique (h : t.Inv hash out) {handle : EvictionHandle}
    (ha : (t.touch hash a).1 = some handle) (hb : (t.touch hash b).1 = some handle) : a = b := by
  rw [touch_eq, Option.map_eq_some_iff] at ha hb
  obtain ⟨e, ha, rfl⟩ := ha
  obtain ⟨e', hb, heq⟩ := hb
  injection heq with hshard hentry
  rw [hshard, hentry] at hb
  exact (h.shard _).key_unique ha hb

theorem touch_add (h : t.Inv hash out) (key : K) (size : Nat) :
    ((t.add hash key size).touch hash key).1 =
      some ⟨t.shard hash key, (t.shards (t.shard hash key)).allocated⟩ := by
  have htable := ((h.shard (t.shard hash key)).insert_release key size).2
  rw [touch_eq]
  unfold add
  rw [shard_setShard, setShard_shards, if_pos rfl, htable, AList.lookup_insert]
  rfl

theorem sameEntry_iff (h : t.Inv hash out) (size : Nat) : SameEntry hash t a b size ↔ a = b := by
  obtain ⟨hinv, htracked, _⟩ := h.add a size
  constructor
  · intro hsame
    obtain ⟨handle, ha, hb⟩ := hsame.touch
    exact hinv.touch_unique ha hb
  · intro heq
    subst heq
    have hfound := touch_add h a size
    refine ⟨⟨_, hfound, hfound⟩, ?_, ?_, rfl⟩
    · intro hleft
      exact (((hinv.remove a).2.1 a).mp hleft).2 rfl
    · intro size'
      constructor
      · funext key
        rw [(hinv.add a size').2.1 key, htracked]
        simp
      · -- the container gives every entry a number of its own
        rw [touch_add hinv]
        intro hold
        have hold := hold.symm
        rw [touch_eq, Option.map_eq_some_iff] at hold
        obtain ⟨e, hlookup, heq⟩ := hold
        have hlt := (hinv.shard _).fresh a e hlookup
        injection heq with _ hentry
        exact absurd hentry (Nat.ne_of_lt hlt)

end LruEvictionPolicy

/-- Two objects with equal fields mean one block if and only if their padding agrees. -/
theorem tracked_by_value {a b : BlockKeyObject} (hkey : a.key = b.key)
    {t : LruEvictionPolicy (List UInt8)} {out : List EvictionHandle} (h : t.Inv hashSlice out)
    (size : Nat) : t.SameEntry hashSlice a.makeupKey b.makeupKey size ↔ a.padding = b.padding := by
  rw [LruEvictionPolicy.sameEntry_iff h, BlockKeyObject.makeupKey_inj hkey]

/-- Objects whose padding is zeroed. -/
theorem tracked_by_value_zero : (LruEvictionPolicy.create 5).SameEntry hashSlice
    (BlockKeyObject.mk ⟨1, 2⟩ #v[0, 0, 0, 0]).makeupKey
    (BlockKeyObject.mk ⟨1, 2⟩ (Vector.replicate 4 0)).makeupKey 1 :=
  (tracked_by_value rfl (LruEvictionPolicy.inv_create 5) 1).mpr (by decide)

/-- One bit of the padding, in an empty tracker: the entry is not found and not removed, a
second one is added, and the eviction looks into another shard. -/
theorem tracked_by_padding : ∃ a b : BlockKeyObject, a.key = b.key ∧
    ∃ t : LruEvictionPolicy (List UInt8),
      t = (LruEvictionPolicy.create 5).add hashSlice a.makeupKey 1 ∧
      (t.touch hashSlice b.makeupKey).1 = none ∧
      (t.remove hashSlice b.makeupKey).Tracked hashSlice a.makeupKey ∧
      (t.add hashSlice b.makeupKey 1).Tracked hashSlice a.makeupKey ∧
      (t.add hashSlice b.makeupKey 1).Tracked hashSlice b.makeupKey ∧
      a.makeupKey ≠ b.makeupKey ∧
      t.shard hashSlice b.makeupKey ≠ t.shard hashSlice a.makeupKey :=
  ⟨⟨⟨1, 2⟩, #v[0, 0, 0, 0]⟩, ⟨⟨1, 2⟩, #v[1, 0, 0, 0]⟩, rfl, _, rfl, by decide +kernel⟩

end StarCache
