import StarCache.Properties.Linearizability

/-!
# Gets after a remove

A remove marks the item that it finds, and may then wait while another call that has found the
item before is still reading it. When it has returned, no get that is called later is answered
from this item: what such a get returns has been inserted since the remove was called.
-/

namespace StarCache

namespace Sharing

open Discipline Pool

variable {su : Setup} {files : Nat → Nat → Nat → UInt8} {past before recent during : Past}
  {p q u v : Flight} {t : Nat} {id : CacheId} {r : ItemRef} {cacheKey : CacheKey} {value : IOBuf}

/-- What a thread has seen of a mark. -/
theorem seen_released {released : Bool} (hstep : CheckedStep su (.act t (.getReleased r) released) p q) :
    (p.shared.items r).released = released := by
  cases hstep with
  | act hact heffect =>
      simp only [effect] at heffect
      split at heffect
      next => cases heffect
      next => exact congrArg Prod.fst (Option.some.inj heffect)

/-- A deed of the call that has started last, as a step after the start. -/
theorem deed_after {e : Atom} {a : e.Answer} {c : Call}
    (h : ⟨e, a⟩ ∈ deeds t (recent ++ (u, .start t c) :: before)) :
    ∃ after x since, recent = after ++ (x, .act t e a) :: since := by
  rw [deeds_start] at h
  obtain ⟨after, since, x, heq, _⟩ := deed_step h
  exact ⟨after, x, since, heq⟩

/-- Between two states in which the index has different items, a set has inserted the second. -/
theorem inserted_between (hflags : Sized su.flags) {x : Flight × Move}
    (hrun : CheckedRun su files (recent ++ x :: before) p)
    (hcalls : Calls Call.Proper (recent ++ x :: before))
    (hx : x.1.shared.index id ≠ some r) (hp : p.shared.index id = some r) :
    ∃ after y since t cacheKey value overwrite,
      recent ++ [x] = after ++ (y, .act t (.insert id r) ()) :: since ∧
      calling t (since ++ before) = some (.set cacheKey value overwrite) ∧
      id = su.cachekey2id cacheKey ∧ r < y.shared.itemCount ∧
      (y.shared.items r).cacheKey = cacheKey ∧ (y.shared.items r).value = value := by
  obtain ⟨after, ⟨y, l⟩, earlier, heq, ⟨since, rfl⟩, hy, hw⟩ :=
    hrun.change (P := fun p => p.shared.index id = some r) hx hp
  obtain ⟨hbefore, hstep⟩ := (heq ▸ hrun).before
  obtain ⟨t, rfl⟩ := index_step hstep hw hy
  have hcalls' : Calls Call.Proper (since ++ before) := (heq ▸ hcalls).before
  obtain ⟨cacheKey, value, overwrite, hcall, hid, _, hlt, hkey, hvalue, _⟩ :=
    insert_step hflags hbefore hcalls' hstep
  refine ⟨after, y, since, t, cacheKey, value, overwrite, ?_, hcall, hid, hlt, hkey, hvalue⟩
  rw [List.append_cons, ← List.cons_append, ← List.append_assoc] at heq
  exact List.append_cancel_right heq

/-- What a remove that succeeds has found is released when it returns. -/
theorem remove_released {st : Status} {buf : IOBuf} (hflags : Sized su.flags)
    (hrun : CheckedRun su files past p) (hcalls : Calls Call.Proper past)
    (hexit : CheckedStep su (.exit t (.remove cacheKey, st, buf)) p q) (hok : st.ok = true) :
    ∃ r, ⟨.find (su.cachekey2id cacheKey), some r⟩ ∈ deeds t past ∧ p.shared.Released r := by
  obtain ⟨_, _, _, hremove⟩ := reaches_result hflags hrun hcalls hexit
  obtain ⟨r, hfound, housted⟩ := hremove cacheKey rfl hok
  exact ⟨r, hfound, ousted_released hflags hrun hcalls housted⟩

/-- A call that starts after an item has been released does not see it unreleased. -/
theorem not_looked {x : Flight × Move} {c : Call} (hflags : Sized su.flags)
    (hrun : CheckedRun su files past p) (hcalls : Calls Call.Proper past)
    (hpast : past = recent ++ x :: before) (hlater : ∃ w, (w, .start t c) ∈ recent)
    (hreleased : x.1.shared.Released r) : ⟨.getReleased r, false⟩ ∉ deeds t past := by
  intro hlooked
  obtain ⟨w, hw⟩ := hlater
  obtain ⟨r₁, r₂, rfl⟩ := List.append_of_mem hw
  rw [hpast, List.append_assoc, List.cons_append] at hlooked
  obtain ⟨b₁, y, b₂, rfl⟩ := deed_after hlooked
  have hsplit : past = b₁ ++ (y, .act t (.getReleased r) false) ::
      ((b₂ ++ (w, .start t c) :: r₂) ++ x :: before) := by
    rw [hpast]
    simp only [List.append_assoc, List.cons_append]
  obtain ⟨hbefore, hstep⟩ := (hsplit ▸ hrun).before
  have hy := hbefore.kept (released_kept hflags) (hsplit ▸ hcalls).before hreleased
  have hseen := seen_released hstep
  rw [hy.2] at hseen
  cases hseen

/-- A get or a read that is called after a remove of the key has succeeded returns, if it succeeds,
the value of a set that has inserted it since the remove was called. -/
theorem read_after_remove {t' : Nat} {request : Option (Int × Nat)} {st st' : Status}
    {buf buf' : IOBuf} (hflags : Sized su.flags) (hreaches : Reaches su files past p)
    (hregular : Regular past) (hpast : past = recent ++ (v, .exit t' (.remove cacheKey, st', buf')) ::
      (during ++ (u, .start t' (.remove cacheKey)) :: before)) (hremoved : st'.ok = true)
    (hlater : ∃ w, (w, .start t (.read cacheKey request)) ∈ recent)
    (hreturns : Moves su (.exit t (.read cacheKey request, st, buf)) p q) (hok : st.ok = true) :
    ∃ after x since t'' r value overwrite,
      recent ++ (v, .exit t' (.remove cacheKey, st', buf')) :: during =
        after ++ (x, .act t'' (.insert (su.cachekey2id cacheKey) r) ()) :: since ∧
      calling t'' (since ++ (u, .start t' (.remove cacheKey)) :: before) =
        some (.set cacheKey value overwrite) ∧ buf = requested request value := by
  have hrun := Reaches.checked hreaches hregular
  have hcalls := hregular.proper
  -- what the remove has found is released from its end on
  obtain ⟨hrun', hend⟩ := (hpast ▸ hrun).before
  have hcalls' : Calls Call.Proper (during ++ (u, .start t' (.remove cacheKey)) :: before) :=
    (hpast ▸ hcalls).before
  obtain ⟨r, hfound, hreleased⟩ := remove_released hflags hrun' hcalls' hend hremoved
  obtain ⟨d₁, z, d₂, rfl⟩ := deed_after hfound
  -- what the get has found was not released when it looked
  obtain ⟨_, hread, _⟩ := reaches_result hflags hrun hcalls (exit_checked hreturns)
  obtain ⟨r', value, hgot, hitem, hbuf⟩ := hread cacheKey request rfl hok
  have hne : r ≠ r' := by
    rintro rfl
    exact not_looked hflags hrun hcalls hpast hlater hreleased hgot.mem
  obtain ⟨w, hw⟩ := hlater
  obtain ⟨r₁, r₂, rfl⟩ := List.append_of_mem hw
  have hfind := hgot.known
  rw [hpast, List.append_assoc, List.cons_append] at hfind
  obtain ⟨a₁, x, a₂, rfl⟩ := deed_after hfind
  -- so that a set has inserted it in between
  have hsplit : past = a₁ ++ (x, .act t (.find (su.cachekey2id cacheKey)) (some r')) ::
      ((a₂ ++ (w, .start t (.read cacheKey request)) :: r₂ ++
        (v, .exit t' (.remove cacheKey, st', buf')) :: d₁) ++
          (z, .act t' (.find (su.cachekey2id cacheKey)) (some r)) ::
            (d₂ ++ (u, .start t' (.remove cacheKey)) :: before)) := by
    rw [hpast]
    simp only [List.append_assoc, List.cons_append]
  obtain ⟨hbefore, hstep⟩ := (hsplit ▸ hrun).before
  have hcalls₁ := (hsplit ▸ hcalls).before
  have hz := found_indexed hbefore.before.2
  have hx : z.shared.index (su.cachekey2id cacheKey) ≠ some r' := by
    rw [hz]
    exact fun h => hne (Option.some.inj h)
  obtain ⟨after, y, since, t'', cacheKey', value', overwrite, heq, hcall, _, hlt, hkey, hvalue⟩ :=
    inserted_between hflags hbefore hcalls₁ hx (found_indexed hstep)
  have hwhere : past = (a₁ ++ (x, .act t (.find (su.cachekey2id cacheKey)) (some r')) :: after) ++
      (y, .act t'' (.insert (su.cachekey2id cacheKey) r') ()) ::
        (since ++ d₂ ++ (u, .start t' (.remove cacheKey)) :: before) := by
    rw [hsplit, List.append_cons _ (z, _), heq]
    simp only [List.append_assoc, List.cons_append]
  obtain ⟨hkey', hvalue'⟩ := item_before hflags hcalls hrun hwhere hlt hitem
  obtain rfl : cacheKey' = cacheKey := hkey.symm.trans hkey'
  obtain rfl : value' = value := hvalue.symm.trans hvalue'
  have hwhole := hpast.symm.trans hwhere
  refine ⟨a₁ ++ (x, .act t (.find (su.cachekey2id cacheKey')) (some r')) :: after, y, since ++ d₂,
    t'', r', value', overwrite, ?_, ?_, hbuf⟩
  · apply List.append_cancel_right
    simpa only [List.append_assoc, List.cons_append] using hwhole
  · rwa [List.append_assoc]

/-- After a set: a remove, another set, and a get. -/
def refilled : Option (Flight × Flight × Flight × Flight) := do
  let run := List.foldlM (exec (effect .small) (Call.thread .small))
  let u ← run ⟨Shared.init fun _ _ _ => 0, fun _ => none⟩
    (.call 0 (.set [1] [9, 8, 7] false) :: List.replicate 15 (.go 0 .calm))
  let v ← run u (.call 1 (.remove [1]) :: List.replicate 13 (.go 1 .calm))
  let w ← run v (.go 1 .calm :: .call 2 (.set [1] [5] true) :: List.replicate 14 (.go 2 .calm))
  let p ← run w (.call 3 (.read [1] none) :: List.replicate 13 (.go 3 .calm))
  return (u, v, w, p)

/-- The get returns what has been set since the remove. -/
theorem read_after_remove_refilled : ∃ past recent during before p q u v,
    Reaches .small (fun _ _ _ => 0) past p ∧
    past = recent ++ (v, .exit 1 (.remove [1], .OK, [])) ::
      (during ++ (u, .start 1 (.remove [1])) :: before) ∧
    Moves .small (.exit 3 (.read [1] none, .OK, [5])) p q ∧
    ∃ after x since t r value overwrite,
      recent ++ (v, .exit 1 (.remove [1], .OK, [])) :: during =
        after ++ (x, .act t (.insert (Setup.small.cachekey2id [1]) r) ()) :: since ∧
      calling t (since ++ (u, .start 1 (.remove [1])) :: before) =
        some (.set [1] value overwrite) ∧ [5] = requested none value := by
  have hrun : refilled.any (fun x => decide (
      (x.2.1.threads 1).bind Thread.result = some (.remove [1], .OK, []) ∧
      (x.2.2.2.threads 3).bind Thread.result = some (.read [1] none, .OK, [5]))) = true := by
    decide +kernel
  obtain ⟨⟨u, v, w, p⟩, hexec, hresults⟩ := (Option.any_eq_true _ _).mp hrun
  obtain ⟨hremoved, hread⟩ := of_decide_eq_true hresults
  obtain ⟨_, hu, hexec⟩ := Option.bind_eq_some_iff.mp hexec
  obtain ⟨_, hv, hexec⟩ := Option.bind_eq_some_iff.mp hexec
  obtain ⟨_, hw, hexec⟩ := Option.bind_eq_some_iff.mp hexec
  obtain ⟨_, hp, hexec⟩ := Option.bind_eq_some_iff.mp hexec
  cases hexec
  rw [List.foldlM_cons] at hv hw hp
  obtain ⟨u', hstart, hv⟩ := Option.bind_eq_some_iff.mp hv
  obtain ⟨v', hend, hw⟩ := Option.bind_eq_some_iff.mp hw
  obtain ⟨w', hstart', hp⟩ := Option.bind_eq_some_iff.mp hp
  obtain ⟨past₀, _, hrun₀, hcalls₀⟩ := Pool.Run.exec .init
    (fun _ _ _ h => nomatch h) _ (proper_call (proper_set (by decide))) hu
  obtain ⟨_, ⟨during, rfl⟩, hrun₁, hcalls₁⟩ := (hrun₀.step (exec_call hstart)).exec
    (hcalls₀.cons (by rintro _ _ ⟨⟩; trivial)) _ proper_go hv
  obtain ⟨_, ⟨recent, rfl⟩, hrun₂, hcalls₂⟩ := (hrun₁.step (exec_done hremoved hend)).exec
    (hcalls₁.cons nofun) _ (proper_call (proper_set (by decide))) hw
  obtain ⟨_, ⟨later, rfl⟩, hrun₃, hcalls₃⟩ := (hrun₂.step (exec_call hstart')).exec
    (hcalls₂.cons (by rintro _ _ ⟨⟩; exact proper_get)) _ proper_go hp
  obtain ⟨q, hexit⟩ := exit_of_result hread
  have hpast : later ++ (w, .start 3 (.read [1] none)) :: (recent ++
      (v, .exit 1 (.remove [1], .OK, [])) :: (during ++ (u, .start 1 (.remove [1])) :: past₀)) =
        (later ++ (w, .start 3 (.read [1] none)) :: recent) ++
          (v, .exit 1 (.remove [1], .OK, [])) ::
            (during ++ (u, .start 1 (.remove [1])) :: past₀) := by
    simp only [List.append_assoc, List.cons_append]
  have hchecked : CheckedRun .small (fun _ _ _ => 0) _ p := hrun₃
  obtain ⟨hreaches, hregular⟩ := CheckedRun.reaches hchecked hcalls₃
  have hread := read_after_remove sized_small hreaches hregular hpast rfl
    ⟨w, List.mem_append_right _ List.mem_cons_self⟩ hexit rfl
  exact ⟨_, later ++ (w, .start 3 (.read [1] none)) :: recent, during, past₀, p, q, u, v, hreaches,
    hpast, hexit, hread⟩

end Sharing

end StarCache
