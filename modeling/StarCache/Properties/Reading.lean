import StarCache.Properties.Integrity

/-!
# Reads of what is at hand

A read whose range is in memory or on disk returns that range, as long as it does not give
up something of the object itself: while it reads a block it promotes the one before, and
what is evicted for that may be the rest of the object.
-/

namespace StarCache

open Prog MachineInt StarCacheImpl

section Reading

variable {rt : Runtime} {options : CacheOptions} {history : List Record} {s : State}
  {cacheKey : CacheKey} {r : ItemRef}

/-- A `get` is a `read` of the whole object. -/
theorem get_eq_read (hlookup : lookupItem rt s cacheKey = some r)
    (readOptions : Option ReadOptions) : (Call.get cacheKey readOptions).run rt s =
      (Call.read cacheKey 0 (s.items r).size readOptions).run rt s := by
  have hreset : lookupItem rt s.reset cacheKey = some r := hlookup
  have hbody : StarCacheImpl.get rt cacheKey readOptions s.reset =
      StarCacheImpl.read rt cacheKey 0 (s.items r).size readOptions s.reset := by
    unfold StarCacheImpl.get StarCacheImpl.read
    simp only [bind, Prog.read, hreset]
    rfl
  exact bind_congr_left hbody fun result => pure (⟨result.1, result.2⟩ : Reply)

/-- A read between calls. -/
theorem read_spec {T H : Prop} {sc : Scenario rt.toPlatform} {g : Ghost}
    (hinv : Inv sc ⟨s.reset, g⟩) (hlookup : lookupItem rt s cacheKey = some r)
    (readOptions : Option ReadOptions) {off size : Nat}
    (hlt : sc.D → off + size < 18446744073709551616)
    (haddr : sc.D → Addressable rt.flags (sc.val r).length) (hdata : T → sc.D) (hsub : H → T)
    (hwhole : H → Throughout rt.flags (sc.whole r) off (off + min size ((sc.val r).length - off)))
    (hdefined : T → sc.T ∨ Readable rt.flags BlockItem.Cached s r off
      (off + min size ((sc.val r).length - off)))
    (hfull : H → (sc.Reads ∧ Readable rt.flags BlockItem.Holds s r off
        (off + min size ((sc.val r).length - off))) ∨
      Readable rt.flags BlockItem.Cached s r off (off + min size ((sc.val r).length - off))) :
    Spec T ((Call.read cacheKey off size readOptions).run rt) (fun reply t =>
      Ran sc Action.InRead s.reset g t g ∧
      (sc.D → reply.status.ok = true → reply.buf = ((sc.val r).drop off).take size) ∧
      (H → reply.status.ok = true ∨ sc.Reads ∧ t.Harmed r) ∧
      (H → ReadsQuietly rt readOptions s r off (off + min size ((sc.val r).length - off)) →
        reply.status.ok = true)) s := by
  unfold Call.run Call.body StarCacheImpl.read
  have hreset : lookupItem rt s.reset cacheKey = some r := hlookup
  rw [spec_bind, spec_modify]
  change Spec T _ _ s.reset
  simp only [spec_bind, spec_read, hreset]
  refine (readFound_spec hinv (lookupItem_iff.mp hlookup).1 readOptions
    (fun hD => Or.inl ⟨rfl, hlt hD⟩) haddr hdata hsub hwhole hdefined hfull).mono ?_
  rintro res t ⟨hran, _, hbytes, hok, hquiet⟩
  exact ⟨hran, fun hD => hbytes hD ⟨rfl, hlt hD⟩, hok, hquiet⟩

/-- The slices of the range that are in memory are there up to their ends. -/
def State.WholeIn (flags : Flags) (s : State) (r : ItemRef) (lo hi : Nat) : Prop :=
  Throughout flags (s.Whole flags r) lo hi

end Reading

end StarCache
