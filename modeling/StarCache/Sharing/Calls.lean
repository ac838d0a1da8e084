import StarCache.Sharing.Writing

/-!
# Runs of calls on shared objects

Every call can be followed from its start to its end, whatever the others do, so that the
invariant holds in every state of a run. A build without `DCHECK` goes on where a check fails; its
runs are those of a build with it as far as no check has failed.
-/

namespace StarCache

namespace Sharing

open Discipline Pool Function Shared

variable {su : Setup} {V : Objects} {files : Nat → Nat → Nat → UInt8}

/-- The steps of a run with the states before them, latest first. -/
abbrev Past := List (Flight × Move)

/-- A run of calls from an empty cache. -/
abbrev Reaches (su : Setup) (files : Nat → Nat → Nat → UInt8) (past : Past) (p : Flight) : Prop :=
  Pool.Run su.effect (Call.thread su) (Shared.init files) past p

/-- A step of the calls. -/
abbrev Moves (su : Setup) (l : Move) (p q : Flight) : Prop :=
  Pool.Step su.effect (Call.thread su) l p q

/-- A run in which a check that fails stops its thread. -/
abbrev CheckedRun (su : Setup) (files : Nat → Nat → Nat → UInt8) (past : Past) (p : Flight) : Prop :=
  Pool.Run (effect su.flags) (Call.thread su) (Shared.init files) past p

abbrev CheckedStep (su : Setup) (l : Move) (p q : Flight) : Prop :=
  Pool.Step (effect su.flags) (Call.thread su) l p q

/-- A set of an object whose size fits an `int`, or a request whose end can be computed. -/
def Call.Proper : Call → Prop
  | .set _ buf _ => buf.length ≤ 2147483648
  | .read _ request => Fits request
  | .remove _ => True

/-- The step of a check that fails. -/
def Label.Fails (l : Move) : Prop := ∃ t, l = .act t (.check false) ()

/-- The calls of a run are proper ones, and no check of it has failed. -/
structure Regular (past : Past) : Prop where
  proper : Calls Call.Proper past
  checked : ∀ x ∈ past, ¬ Label.Fails x.2

/-! ## Runs of the builds -/

section Builds

variable {past : Past} {p q : Flight} {l : Move}

theorem effect_of_ne {t : Nat} {e : Atom} {input : Input} {s : Shared}
    (he : e ≠ .check false) : su.effect t e input s = effect su.flags t e input s := by
  cases e with
  | check c =>
      cases c with
      | false => exact absurd rfl he
      | true => rfl
  | _ => rfl

theorem Regular.tail {x : Flight × Move} (h : Regular (x :: past)) : Regular past :=
  ⟨h.proper.tail, fun y hy => h.checked y (List.mem_cons_of_mem _ hy)⟩

theorem Moves.checked (h : Moves su l p q) (hl : ¬ Label.Fails l) : CheckedStep su l p q := by
  cases h with
  | start c hfree => exact .start c hfree
  | @act _ t e next i a s hact heffect =>
      have he : e ≠ .check false := by
        rintro rfl
        exact hl ⟨t, rfl⟩
      exact .act hact ((effect_of_ne he).symm.trans heffect)
  | exit hdone => exact .exit hdone

theorem Reaches.checked (h : Reaches su files past p) (hpast : Regular past) :
    CheckedRun su files past p := by
  induction h with
  | init => exact .init
  | step _ hstep ih =>
      exact (ih hpast.tail).step (Moves.checked hstep (hpast.checked _ List.mem_cons_self))

theorem CheckedStep.passes (h : CheckedStep su l p q) : ¬ Label.Fails l := by
  rintro ⟨t, rfl⟩
  cases h with
  | act _ heffect => cases heffect

theorem CheckedStep.moves (h : CheckedStep su l p q) : Moves su l p q := by
  have hl := CheckedStep.passes h
  cases h with
  | start c hfree => exact .start c hfree
  | @act _ t e next i a s hact heffect =>
      have he : e ≠ .check false := by
        rintro rfl
        exact hl ⟨t, rfl⟩
      exact .act hact ((effect_of_ne he).trans heffect)
  | exit hdone => exact .exit hdone

theorem CheckedRun.reaches (h : CheckedRun su files past p) (hcalls : Calls Call.Proper past) :
    Reaches su files past p ∧ Regular past := by
  induction h with
  | init => exact ⟨.init, hcalls, fun _ h => nomatch h⟩
  | step _ hstep ih =>
      obtain ⟨hrun, hpast⟩ := ih hcalls.tail
      refine ⟨hrun.step (CheckedStep.moves hstep), hcalls, fun x hx => ?_⟩
      rcases List.mem_cons.mp hx with rfl | hx
      · exact CheckedStep.passes hstep
      · exact hpast.checked x hx

/-- With `DCHECK` no run goes past a check that fails. -/
theorem Reaches.regular (hdcheck : su.dcheck = true) (h : Reaches su files past p)
    (hcalls : Calls Call.Proper past) : Regular past := by
  refine ⟨hcalls, ?_⟩
  induction h with
  | init => exact fun _ h => nomatch h
  | step _ hstep ih =>
      intro x hx
      rcases List.mem_cons.mp hx with rfl | hx
      · rintro ⟨t, rfl⟩
        cases hstep with
        | act _ heffect =>
            unfold Setup.effect at heffect
            rw [hdcheck] at heffect
            cases heffect
      · exact ih hcalls.tail x hx

end Builds

/-! ## Outlines -/

/-- A set makes an object of `V`. -/
def Call.Within (V : Objects) : Call → Prop
  | .set cacheKey buf _ => buf ≠ [] → V.Has cacheKey buf
  | .read _ request => Fits request
  | .remove _ => True

/-- The objects of the sets of a run. -/
def objectsOf (past : Past) : Objects where
  Has cacheKey value := 0 < value.length ∧ value.length ≤ 2147483648 ∧
    ∃ p t overwrite, (p, .start t (.set cacheKey value overwrite)) ∈ past
  pos h := h.1
  le h := h.2.1

theorem calls_within {past : Past} (hcalls : Calls Call.Proper past) :
    Calls (Call.Within (objectsOf past)) past := by
  intro p t c hc
  have hproper := hcalls p t c hc
  cases c with
  | set cacheKey buf overwrite =>
      exact fun hne => ⟨List.length_pos_of_ne_nil hne, hproper, p, t, overwrite, hc⟩
  | read | remove => exact hproper

/-- What a call has, when it ends, and what it has got. -/
def Ended (su : Setup) (t : Nat) (result : Call × Status × IOBuf) : Knowledge := fun tr s =>
  s.held t = .none ∧
    (∀ cacheKey request, result.1 = .read cacheKey request → result.2.1.ok = true →
      ∃ r value, Upon ⟨.getReleased r, false⟩
        (fun tr => ⟨.find (su.cachekey2id cacheKey), some r⟩ ∈ tr) tr s ∧
        IsItem r cacheKey value tr s ∧ result.2.2 = requested request value) ∧
    (∀ cacheKey buf overwrite, result.1 = .set cacheKey buf overwrite →
      Inserted (su.cachekey2id cacheKey) cacheKey buf result.2.1 tr s) ∧
    ∀ cacheKey, result.1 = .remove cacheKey → result.2.1.ok = true →
      ∃ r, ⟨.find (su.cachekey2id cacheKey), some r⟩ ∈ tr ∧ Ousted r tr s

theorem inv_init (flags : Flags) : Inv flags V (.init files) := by
  have hnone : ∀ {p : DiskRef → Prop} d, (Shared.init files).diskHolders d ≠ [] → p d :=
    fun _ h => absurd rfl h
  refine ⟨⟨⟨hnone, fun d d' h => absurd rfl h, fun id h => (nomatch h), hnone⟩,
    ⟨fun _ _ _ => rfl, fun _ _ => rfl, fun r h => absurd rfl h⟩, fun r i d h => (nomatch h),
    fun r _ i => rfl⟩, ?_⟩
  exact ⟨fun r h => absurd h (Nat.not_lt_zero r), fun r i m h => (nomatch h),
    fun r i d h => (nomatch h), fun m h => absurd h (Nat.not_lt_zero m), hnone,
    fun d _ => ⟨0, fun x h => (nomatch h)⟩, hnone, fun id r h => (nomatch h)⟩

theorem call_outline (hflags : Sized su.flags) (t : Nat) {c : Call} (hc : c.Within V) :
    (discipline su.flags V).Outline t (Ended su t) (c.thread su)
      (At t .none fun _ _ => True) := by
  have hF : Lasting su.flags V fun _ _ => True := persistent_const True
  have hfree : Held.none.Free := fun _ => rfl
  cases c with
  | set cacheKey buf overwrite =>
      refine Outline.bind (set_runs hF hflags hfree hc) fun st => outline_pure ?_
      rintro tr s _ ⟨hheld, _, hgot⟩
      refine ⟨hheld, fun _ _ h => (nomatch h), ?_, fun _ h => nomatch h⟩
      rintro _ _ _ ⟨⟩
      exact hgot
  | read cacheKey request =>
      refine Outline.bind (read_runs hF hflags hfree hc) fun result => outline_pure ?_
      rintro tr s _ ⟨hheld, _, hgot⟩
      refine ⟨hheld, ?_, fun _ _ _ h => (nomatch h), fun _ h => nomatch h⟩
      rintro _ _ ⟨⟩ hok
      exact hgot hok
  | remove cacheKey =>
      refine Outline.bind (remove_runs hF hfree) fun st => outline_pure ?_
      rintro tr s _ ⟨hheld, _, hgot⟩
      refine ⟨hheld, fun _ _ h => (nomatch h), fun _ _ _ h => (nomatch h), ?_⟩
      rintro _ ⟨⟩ hok
      exact hgot hok

theorem calls_outlined (hflags : Sized su.flags) (V : Objects) (files : Nat → Nat → Nat → UInt8) :
    (discipline su.flags V).Outlined (Call.thread su) (Call.Within V) (Ended su) (.init files) where
  inv := inv_init su.flags
  idle _ := rfl
  stable t _ ht _ _ _ _ _ hguar hidle := (hguar.held t ht.symm).trans hidle
  refl _ s _ := .refl s
  program t _ hc := (call_outline hflags t hc).pre fun _ _ _ hP => ⟨hP.1, trivial⟩
  exit _ _ _ _ hP := hP.1

/-! ## Runs -/

section Runs

variable {past after before : Past} {p q : Flight} {l : Move} {t : Nat} {x : Flight × Move}
  {P : Shared → Prop} (hflags : Sized su.flags)

include hflags

/-- The invariant holds in every state of a run, and only a thread that runs has pointers. -/
theorem reaches_inv (hrun : CheckedRun su files past p) (hcalls : Calls Call.Proper past) :
    Inv su.flags (objectsOf past) p.shared ∧
      ∀ t, p.threads t = none → p.shared.held t = .none := by
  obtain ⟨hinv, hall⟩ := (calls_outlined hflags (objectsOf past) files).run hrun
    (calls_within hcalls)
  refine ⟨hinv, fun t ht => ?_⟩
  have hown := hall t
  rwa [ht] at hown

/-- A step keeps to what its thread guarantees. -/
theorem reaches_guar (hrun : CheckedRun su files past p)
    (hcalls : Calls Call.Proper ((p, l) :: past)) (hstep : CheckedStep su l p q) :
    Inv su.flags (objectsOf ((p, l) :: past)) q.shared ∧
      Guar su.flags l.thread p.shared q.shared :=
  ((calls_outlined hflags (objectsOf _) files).guar hrun hstep (calls_within hcalls)).2

/-- The result of a call. -/
theorem reaches_result {result : Call × Status × IOBuf} (hrun : CheckedRun su files past p)
    (hcalls : Calls Call.Proper past) (hexit : CheckedStep su (.exit t result) p q) :
    Ended su t result (deeds t past) p.shared :=
  (calls_outlined hflags (objectsOf past) files).result hrun (calls_within hcalls) hexit

/-- What no thread makes false stays true to the end of the run. -/
theorem reaches_lasting (hP : ∀ V, Lasting su.flags V fun _ s => P s)
    (hrun : CheckedRun su files (after ++ x :: before) q)
    (hcalls : Calls Call.Proper (after ++ x :: before)) (hx : P x.1.shared) : P q.shared :=
  (calls_outlined hflags (objectsOf _) files).lasting (hP _) hrun (calls_within hcalls) hx

/-- The same from after a step. -/
theorem reaches_follows (hP : ∀ V, Lasting su.flags V fun _ s => P s)
    (hrun : CheckedRun su files (after ++ x :: before) q)
    (hcalls : Calls Call.Proper (after ++ x :: before)) (hx : P (follower after q).shared) :
    P q.shared :=
  (calls_outlined hflags (objectsOf _) files).follows (hP _) hrun (calls_within hcalls) hx

end Runs

end Sharing

end StarCache
