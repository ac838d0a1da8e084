import Mathlib.Logic.Function.Basic
import Mathlib.Data.List.Basic

/-!
# Interleaved threads

A thread is a sequential program of atomic actions, and goes on from their answers. Any number
of threads work on a shared state; a step is one action of one of them, which may depend on whose
it is, so that between two actions of a thread the others may do anything.

What a thread does next may depend on the answer it has just got: `Guarded` says so of its text,
and `Step.relies` is the rule by which what the answer has told stays true of the shared state
until the thread has acted on it.
-/

/-- A program with actions `e` that are answered in `R e`. -/
inductive Thread (E : Type) (R : E → Type) (α : Type) : Type
  | done (a : α)
  | act (e : E) (next : R e → Thread E R α)

namespace Thread

variable {E : Type} {R : E → Type} {α β γ : Type}

def bind : Thread E R α → (α → Thread E R β) → Thread E R β
  | .done a, f => f a
  | .act e next, f => .act e fun r => (next r).bind f

instance : Monad (Thread E R) where
  pure := .done
  bind := bind

/-- A single action. -/
def perform (e : E) : Thread E R (R e) := .act e .done

/-- The action that comes next. -/
def head : Thread E R α → Option E
  | .done _ => none
  | .act e _ => some e

/-- The result, at the end. -/
def result : Thread E R α → Option α
  | .done a => some a
  | .act _ _ => none

/-- Run `m` when the test holds. -/
def when (c : Bool) (m : Thread E R Unit) : Thread E R Unit := if c then m else pure ()

/-- A loop over a list. -/
def forEach (xs : List γ) (body : γ → Thread E R Unit) : Thread E R Unit :=
  match xs with
  | [] => pure ()
  | x :: rest => do
      body x
      forEach rest body

/-- A loop over a list that is left at the first result for which `stop` holds. -/
def forUntil (stop : β → Bool) (done : β) (xs : List γ) (body : γ → Thread E R β) :
    Thread E R β :=
  match xs with
  | [] => pure done
  | x :: rest => do
      let b ← body x
      if stop b then pure b else forUntil stop done rest body

/-- Bounded retries, with a remedy after each that fails. -/
def retry (attempt : Thread E R (Option α)) (remedy : Thread E R Unit) :
    Nat → Thread E R (Option α)
  | 0 => pure none
  | n + 1 => do
      match ← attempt with
      | some a => pure (some a)
      | none => do
          remedy
          retry attempt remedy n

/-! ## Actions that depend on the answer before -/

/-- The first action, if there is one, satisfies `A`, and each of the others what the answer
to the action before it requires. -/
def Guarded (requires : (e : E) → R e → Option E → Prop) (A : Option E → Prop) :
    Thread E R α → Prop
  | .done _ => A none
  | .act e next => A (some e) ∧ ∀ a, Guarded requires (requires e a) (next a)

section Guarded

variable {requires : (e : E) → R e → Option E → Prop} {A B free : Option E → Prop}
  {m : Thread E R α} {f : α → Thread E R β} {e : E}

theorem Guarded.head (h : Guarded requires A m) : A m.head := by
  cases m with
  | done => exact h
  | act => exact h.1

theorem Guarded.mono (h : Guarded requires A m) (hAB : A m.head → B m.head) :
    Guarded requires B m := by
  cases m with
  | done => exact hAB h
  | act => exact ⟨hAB h.1, h.2⟩

theorem guarded_perform (hA : A (some e)) (hnone : ∀ a, requires e a none) :
    Guarded requires A (perform e : Thread E R (R e)) := ⟨hA, hnone⟩

theorem guarded_perform_bind {f : R e → Thread E R β} (hA : A (some e))
    (hf : ∀ a, Guarded requires (requires e a) (f a)) :
    Guarded requires A (perform e >>= f) := ⟨hA, hf⟩

/-- What may stand where a thread may end can be put at its end. -/
theorem Guarded.bind (hfree : ∀ e a, requires e a none → ∀ o, free o → requires e a o)
    (hA : A none → ∀ o, free o → A o) (h : Guarded requires A m)
    (hf : ∀ a, Guarded requires free (f a)) : Guarded requires A (m >>= f) := by
  induction m generalizing A with
  | done a => exact (hf a).mono (hA h _)
  | act e next ih => exact ⟨h.1, fun r => ih r (hfree e r) (h.2 r)⟩

section Loops

variable (hfree : ∀ e a, requires e a none → ∀ o, free o → requires e a o) (hnone : free none)

include hfree hnone

theorem guarded_forEach {xs : List γ} {body : γ → Thread E R Unit}
    (hbody : ∀ x, Guarded requires free (body x)) : Guarded requires free (forEach xs body) := by
  induction xs with
  | nil => exact hnone
  | cons x rest ih => exact (hbody x).bind hfree (fun _ _ h => h) fun _ => ih

theorem guarded_forUntil {stop : β → Bool} {done : β} {xs : List γ} {body : γ → Thread E R β}
    (hbody : ∀ x, Guarded requires free (body x)) :
    Guarded requires free (forUntil stop done xs body) := by
  induction xs with
  | nil => exact hnone
  | cons x rest ih =>
      refine (hbody x).bind hfree (fun _ _ h => h) fun b => ?_
      split
      next => exact hnone
      next => exact ih

theorem guarded_retry {attempt : Thread E R (Option α)} {remedy : Thread E R Unit}
    (hattempt : Guarded requires free attempt) (hremedy : Guarded requires free remedy) (n : Nat) :
    Guarded requires free (retry attempt remedy n) := by
  induction n with
  | zero => exact hnone
  | succ n ih =>
      refine hattempt.bind hfree (fun _ _ h => h) fun found => ?_
      cases found with
      | some a => exact hnone
      | none => exact hremedy.bind hfree (fun _ _ h => h) fun _ => ih

end Loops

end Guarded

/-! ## Actions that a result depends on -/

/-- The last action accounts for the result; `last` says so of the action before. -/
def Ends (accounts : E → α → Prop) (last : α → Prop) : Thread E R α → Prop
  | .done a => last a
  | .act e next => ∀ r, Ends accounts (accounts e) (next r)

section Ends

variable {accounts : E → β → Prop} {last plain : β → Prop} {m : Thread E R α}

/-- Whatever the first part ends with: where the second part may return at once, it returns
what needs no account. -/
theorem Ends.bind (hplain : ∀ e b, plain b → accounts e b) (hlast : ∀ b, plain b → last b)
    {f : α → Thread E R β}
    (hf : ∀ a last, (∀ b, plain b → last b) → Ends accounts last (f a)) :
    Ends accounts last (m >>= f) := by
  induction m generalizing last with
  | done a => exact hf a last hlast
  | act e next ih => exact fun r => ih r (hplain e)

theorem Ends.mono {accounts' : E → β → Prop} {last' : β → Prop} {m : Thread E R β}
    (h : Ends accounts last m) (haccounts : ∀ e b, accounts e b → accounts' e b)
    (hlast : ∀ b, last b → last' b) : Ends accounts' last' m := by
  induction m generalizing last last' with
  | done b => exact hlast b h
  | act e next ih => exact fun r => ih r (h r) (haccounts e)

/-- The result is only wrapped up. -/
theorem Ends.map {f : α → β} (h : Ends (fun e a => accounts e (f a)) (fun a => last (f a)) m) :
    Ends accounts last (m >>= fun a => pure (f a)) := by
  induction m generalizing last with
  | done a => exact h
  | act e next ih => exact fun r => ih r (h r)

end Ends

end Thread

/-! ## Steps -/

/-- A shared state, and the threads that are running. -/
structure Pool (σ E : Type) (R : E → Type) (α : Type) where
  shared : σ
  threads : Nat → Option (Thread E R α)

/-- A thread starts with a call, acts and gets an answer, or ends. -/
inductive Label (C E : Type) (R : E → Type) (α : Type)
  | start (t : Nat) (c : C)
  | act (t : Nat) (e : E) (a : R e)
  | exit (t : Nat) (a : α)

def Label.thread {C E : Type} {R : E → Type} {α : Type} : Label C E R α → Nat
  | .start t _ | .act t _ _ | .exit t _ => t

namespace Pool

open Function

variable {σ E C I α : Type} {R : E → Type}

section Runs

/- What an action of a thread does to the shared state, and what the calls run; the input is what
the action depends on besides. -/
variable (effect : Nat → (e : E) → I → σ → Option (R e × σ)) (program : C → Thread E R α)

inductive Step : Label C E R α → Pool σ E R α → Pool σ E R α → Prop
  | start {p : Pool σ E R α} {t : Nat} (c : C) : p.threads t = none →
      Step (.start t c) p { p with threads := update p.threads t (some (program c)) }
  | act {p : Pool σ E R α} {t : Nat} {e : E} {next : R e → Thread E R α} {i : I} {a : R e} {s : σ} :
      p.threads t = some (.act e next) → effect t e i p.shared = some (a, s) →
        Step (.act t e a) p ⟨s, update p.threads t (some (next a))⟩
  | exit {p : Pool σ E R α} {t : Nat} {a : α} : p.threads t = some (.done a) →
      Step (.exit t a) p { p with threads := update p.threads t none }

/-- Runs from the shared state `init`, with the steps taken and the states before them, latest
first. -/
inductive Run (init : σ) : List (Pool σ E R α × Label C E R α) → Pool σ E R α → Prop
  | init : Run init [] ⟨init, fun _ => none⟩
  | step {past : List (Pool σ E R α × Label C E R α)} {p q : Pool σ E R α} {l : Label C E R α} :
      Run init past p → Step effect program l p q → Run init ((p, l) :: past) q

/-- Start a call, or let a thread go on with an input. -/
inductive Command (C I : Type)
  | call (t : Nat) (c : C)
  | go (t : Nat) (i : I)

def Command.thread : Command C I → Nat
  | .call t _ | .go t _ => t

/-- Carry out a command. -/
def exec (p : Pool σ E R α) : Command C I → Option (Pool σ E R α)
  | .call t c =>
      if (p.threads t).isNone then
        some { p with threads := update p.threads t (some (program c)) }
      else none
  | .go t i =>
      match p.threads t with
      | none => none
      | some (.done _) => some { p with threads := update p.threads t none }
      | some (.act e next) =>
          (effect t e i p.shared).map fun x => ⟨x.2, update p.threads t (some (next x.1))⟩

variable {effect program}

/-- A step is one thread's. -/
theorem Step.other {p q : Pool σ E R α} {l : Label C E R α} (hstep : Step effect program l p q)
    {t : Nat} (h : l.thread ≠ t) : q.threads t = p.threads t := by
  cases hstep with
  | start | act | exit => exact update_of_ne (Ne.symm h) ..

theorem exec_call {p q : Pool σ E R α} {t : Nat} {c : C}
    (h : exec effect program p (Command.call (I := I) t c) = some q) :
    Step effect program (.start t c) p q := by
  unfold exec at h
  dsimp only at h
  split at h
  next hfree =>
    cases h
    exact .start c (Option.isNone_iff_eq_none.mp hfree)
  next => cases h

theorem exec_done {p q : Pool σ E R α} {t : Nat} {i : I} {a : α}
    (ha : (p.threads t).bind Thread.result = some a)
    (h : exec effect program p (Command.go t i) = some q) :
    Step effect program (.exit t a) p q := by
  obtain ⟨m, hm, hresult⟩ := Option.bind_eq_some_iff.mp ha
  cases m with
  | done a =>
      cases hresult
      unfold exec at h
      dsimp only at h
      rw [hm] at h
      cases h
      exact .exit hm
  | act => cases hresult

/-- The step that comes of a command. -/
inductive Command.Yields (effect : Nat → (e : E) → I → σ → Option (R e × σ)) :
    Command C I → Label C E R α → Prop
  | call (t : Nat) (c : C) : Yields effect (.call t c) (.start t c)
  | act {t : Nat} {e : E} {i : I} {a : R e} {s s' : σ} (heffect : effect t e i s = some (a, s')) :
      Yields effect (.go t i) (.act t e a)
  | exit (t : Nat) (i : I) (a : α) : Yields effect (.go t i) (.exit t a)

theorem Command.Yields.thread {c : Command C I} {l : Label C E R α} (h : c.Yields effect l) :
    l.thread = c.thread := by
  cases h <;> rfl

theorem exec_step {p q : Pool σ E R α} {c : Command C I} (h : exec effect program p c = some q) :
    ∃ l, Step effect program l p q ∧ c.Yields effect l := by
  cases c with
  | call t c => exact ⟨_, exec_call h, .call t c⟩
  | go t i =>
      unfold exec at h
      dsimp only at h
      split at h
      next => cases h
      next a hdone =>
        cases h
        exact ⟨_, .exit hdone, .exit t i a⟩
      next e next hact =>
        obtain ⟨x, heffect, rfl⟩ := Option.map_eq_some_iff.mp h
        exact ⟨_, .act hact heffect, .act heffect⟩

/-- A thread that gets no command stays where it is. -/
theorem exec_others {p q : Pool σ E R α} {t : Nat} (commands : List (Command C I))
    (ht : ∀ c ∈ commands, c.thread ≠ t)
    (h : commands.foldlM (exec effect program) p = some q) : q.threads t = p.threads t := by
  induction commands generalizing p with
  | nil =>
      cases h
      rfl
  | cons c rest ih =>
      rw [List.foldlM_cons] at h
      obtain ⟨u, hu, h⟩ := Option.bind_eq_some_iff.mp h
      obtain ⟨l, hstep, hl⟩ := exec_step hu
      rw [ih (fun c hc => ht c (List.mem_cons_of_mem _ hc)) h]
      exact hstep.other (hl.thread ▸ ht c List.mem_cons_self)

/-- The calls of the run are allowed ones. -/
def Calls (Allowed : C → Prop) (past : List (Pool σ E R α × Label C E R α)) : Prop :=
  ∀ p t c, (p, Label.start t c) ∈ past → Allowed c

theorem Calls.cons {Allowed : C → Prop} {past : List (Pool σ E R α × Label C E R α)}
    {p : Pool σ E R α} {l : Label C E R α} (hpast : Calls Allowed past)
    (hl : ∀ t c, l = .start t c → Allowed c) : Calls Allowed ((p, l) :: past) := by
  intro p' t c hx
  rcases List.mem_cons.mp hx with heq | hx
  · exact hl t c (congrArg Prod.snd heq).symm
  · exact hpast p' t c hx

theorem Calls.tail {Allowed : C → Prop} {past : List (Pool σ E R α × Label C E R α)}
    {x : Pool σ E R α × Label C E R α} (h : Calls Allowed (x :: past)) : Calls Allowed past :=
  fun p t c hx => h p t c (List.mem_cons_of_mem _ hx)

/-- The calls before a step are allowed ones too. -/
theorem Calls.before {Allowed : C → Prop} {after before : List (Pool σ E R α × Label C E R α)}
    {x : Pool σ E R α × Label C E R α} (h : Calls Allowed (after ++ x :: before)) :
    Calls Allowed before :=
  fun p t c hx => h p t c (List.mem_append_right _ (List.mem_cons_of_mem _ hx))

/-- Commands that can be carried out continue a run, each by a step. -/
theorem Run.yields {init : σ} {past : List (Pool σ E R α × Label C E R α)} {p q : Pool σ E R α}
    (hrun : Run effect program init past p) (commands : List (Command C I))
    (h : commands.foldlM (Pool.exec effect program) p = some q) :
    ∃ after, Run effect program init (after ++ past) q ∧
      ∀ x ∈ after, ∃ c ∈ commands, c.Yields effect x.2 := by
  induction commands generalizing past p with
  | nil =>
      cases h
      exact ⟨[], hrun, fun _ h => nomatch h⟩
  | cons c rest ih =>
      rw [List.foldlM_cons] at h
      obtain ⟨u, hu, h⟩ := Option.bind_eq_some_iff.mp h
      obtain ⟨l, hstep, hl⟩ := exec_step hu
      obtain ⟨after, hrun', hafter⟩ := ih (hrun.step hstep) h
      refine ⟨after ++ [(p, l)], by rwa [List.append_assoc], fun x hx => ?_⟩
      rcases List.mem_append.mp hx with hx | hx
      · obtain ⟨c', hc', hyields⟩ := hafter x hx
        exact ⟨c', List.mem_cons_of_mem _ hc', hyields⟩
      · obtain rfl := List.mem_singleton.mp hx
        exact ⟨c, List.mem_cons_self, hl⟩

/-- Steps that come of commands make the calls that are among these. -/
theorem Calls.of_yields {Allowed : C → Prop} {past : List (Pool σ E R α × Label C E R α)}
    {commands : List (Command C I)} (h : ∀ x ∈ past, ∃ c ∈ commands, c.Yields effect x.2)
    (hcalls : ∀ t c, .call t c ∈ commands → Allowed c) : Calls Allowed past := by
  intro p t c hx
  obtain ⟨_, hc, ⟨⟩⟩ := h _ hx
  exact hcalls t c hc

/-- Commands that can be carried out continue a run of allowed calls. -/
theorem Run.exec {Allowed : C → Prop} {init : σ} {past : List (Pool σ E R α × Label C E R α)}
    {p q : Pool σ E R α} (hrun : Run effect program init past p) (hpast : Calls Allowed past)
    (commands : List (Command C I)) (hcalls : ∀ t c, .call t c ∈ commands → Allowed c)
    (h : commands.foldlM (Pool.exec effect program) p = some q) :
    ∃ past', past <:+ past' ∧ Run effect program init past' q ∧ Calls Allowed past' := by
  obtain ⟨after, hrun', hafter⟩ := hrun.yields commands h
  refine ⟨after ++ past, List.suffix_append .., hrun', fun p' t c hx => ?_⟩
  rcases List.mem_append.mp hx with hx | hx
  · exact Calls.of_yields hafter hcalls p' t c hx
  · exact hpast p' t c hx

/-- The state after a step of a run that has come to `p`, from the steps after it. -/
def follower (after : List (Pool σ E R α × Label C E R α)) (p : Pool σ E R α) : Pool σ E R α :=
  (after.getLast?.map Prod.fst).getD p

theorem follower_cons (after : List (Pool σ E R α × Label C E R α)) (p q : Pool σ E R α)
    (l : Label C E R α) : follower ((p, l) :: after) q = follower after p := by
  unfold follower
  rw [List.getLast?_cons]
  cases after.getLast? <;> rfl

theorem follower_append (after before : List (Pool σ E R α × Label C E R α)) (p q : Pool σ E R α)
    (l : Label C E R α) : follower (after ++ (p, l) :: before) q = follower before p := by
  unfold follower
  rw [List.getLast?_append, List.getLast?_cons]
  cases before.getLast? <;> rfl

theorem Run.first {init : σ} {past : List (Pool σ E R α × Label C E R α)} {p : Pool σ E R α}
    (hrun : Run effect program init past p) : follower past p = ⟨init, fun _ => none⟩ := by
  induction hrun with
  | init => rfl
  | step hrun _ ih => rw [follower_cons, ih]

/-- What was before a step of a run is a run. -/
theorem Run.before {init : σ} {after before : List (Pool σ E R α × Label C E R α)}
    {x : Pool σ E R α × Label C E R α} {p : Pool σ E R α}
    (hrun : Run effect program init (after ++ x :: before) p) :
    Run effect program init before x.1 ∧ Step effect program x.2 x.1 (follower after p) := by
  generalize hpast : after ++ x :: before = past at hrun
  induction hrun generalizing after with
  | init => cases after <;> cases hpast
  | @step past p q l hrun hstep ih =>
      cases after with
      | nil =>
          cases hpast
          exact ⟨hrun, hstep⟩
      | cons y after =>
          cases hpast
          obtain ⟨hbefore, hnext⟩ := ih rfl
          refine ⟨hbefore, ?_⟩
          rwa [follower_cons]

/-- What is not so at first and is so later has become so by a step in between. -/
theorem Run.change {init : σ} {P : Pool σ E R α → Prop}
    {after before : List (Pool σ E R α × Label C E R α)} {x : Pool σ E R α × Label C E R α}
    {q : Pool σ E R α} (hrun : Run effect program init (after ++ x :: before) q) (hx : ¬ P x.1)
    (hq : P q) : ∃ later y earlier, after ++ x :: before = later ++ y :: earlier ∧
      before <:+ earlier ∧ ¬ P y.1 ∧ P (follower later q) := by
  induction after generalizing q with
  | nil => exact ⟨[], x, before, rfl, List.suffix_refl _, hx, hq⟩
  | cons y after ih =>
      obtain ⟨p, l⟩ := y
      by_cases hp : P p
      · cases hrun with
        | step hrun _ =>
            obtain ⟨later, y, earlier, heq, hsuffix, hy, hlater⟩ := ih hrun hp
            refine ⟨(p, l) :: later, y, earlier, congrArg _ heq, hsuffix, hy, ?_⟩
            rwa [follower_cons]
      · refine ⟨[], (p, l), _, rfl, ?_, hp, hq⟩
        exact (List.suffix_cons x before).trans (List.suffix_append ..)

/-- What every step keeps is kept to the end of the run. -/
theorem Run.kept {Allowed : C → Prop} {init : σ} {P : Pool σ E R α → Prop}
    (hkeep : ∀ {past p l q}, Run effect program init past p → Calls Allowed ((p, l) :: past) →
      Step effect program l p q → P p → P q)
    {after before : List (Pool σ E R α × Label C E R α)} {x : Pool σ E R α × Label C E R α}
    {q : Pool σ E R α} (hrun : Run effect program init (after ++ x :: before) q)
    (hcalls : Calls Allowed (after ++ x :: before)) (hx : P x.1) : P q := by
  by_contra hq
  obtain ⟨later, ⟨p, l⟩, earlier, heq, _, hp, hlater⟩ :=
    Run.change (P := fun p => ¬ P p) hrun (not_not.mpr hx) hq
  obtain ⟨hbefore, hstep⟩ := (heq ▸ hrun).before
  exact hlater (hkeep hbefore (fun v t c hc => hcalls v t c (heq ▸ List.mem_append_right _ hc))
    hstep (not_not.mp hp))

/-- The same of what is not so after a step. -/
theorem Run.change_follower {init : σ} {P : Pool σ E R α → Prop}
    {after before : List (Pool σ E R α × Label C E R α)} {x : Pool σ E R α × Label C E R α}
    {q : Pool σ E R α} (hrun : Run effect program init (after ++ x :: before) q)
    (hx : ¬ P (follower after q)) (hq : P q) : ∃ later y earlier,
      after ++ x :: before = later ++ y :: earlier ∧ x :: before <:+ earlier ∧ ¬ P y.1 ∧
        P (follower later q) := by
  rcases List.eq_nil_or_concat after with rfl | ⟨later, y, rfl⟩
  · exact absurd hq hx
  · unfold follower at hx
    rw [List.concat_eq_append] at hrun hx ⊢
    rw [List.getLast?_append] at hx
    rw [List.append_assoc] at hrun ⊢
    exact hrun.change hx hq

/-- What holds after a step, and every step keeps, is kept to the end of the run. -/
theorem Run.kept_follower {Allowed : C → Prop} {init : σ} {P : Pool σ E R α → Prop}
    (hkeep : ∀ {past p l q}, Run effect program init past p → Calls Allowed ((p, l) :: past) →
      Step effect program l p q → P p → P q)
    {after before : List (Pool σ E R α × Label C E R α)} {x : Pool σ E R α × Label C E R α}
    {q : Pool σ E R α} (hrun : Run effect program init (after ++ x :: before) q)
    (hcalls : Calls Allowed (after ++ x :: before)) (hx : P (follower after q)) : P q := by
  by_contra hq
  obtain ⟨later, ⟨p, l⟩, earlier, heq, _, hp, hlater⟩ :=
    Run.change_follower (P := fun p => ¬ P p) hrun (not_not.mpr hx) hq
  obtain ⟨hbefore, hstep⟩ := (heq ▸ hrun).before
  exact hlater (hkeep hbefore (fun v t c hc => hcalls v t c (heq ▸ List.mem_append_right _ hc))
    hstep (not_not.mp hp))

/-- The call that thread `t` runs, or the last that it has run. -/
def calling (t : Nat) : List (Pool σ E R α × Label C E R α) → Option C
  | [] => none
  | (_, .start t' c) :: past => if t' = t then some c else calling t past
  | (_, .act _ _ _) :: past | (_, .exit _ _) :: past => calling t past

end Runs

/-! ## What the next actions rely on -/

section Relies

variable {effect : Nat → (e : E) → I → σ → Option (R e × σ)} {program : C → Thread E R α}
  {requires : (e : E) → R e → Option E → Prop} {Holds : σ → Option E → Prop}
  {p q : Pool σ E R α} {l : Label C E R α}

/-- What holds of the shared state for the next action of every thread. -/
def Relies (requires : (e : E) → R e → Option E → Prop) (Holds : σ → Option E → Prop)
    (p : Pool σ E R α) : Prop :=
  ∀ t m, p.threads t = some m → m.Guarded requires (Holds p.shared)

/-- What is required after an answer has to hold then, and stay so while others act. -/
theorem Step.relies (hstep : Step effect program l p q)
    (hprogram : ∀ c s, (program c).Guarded requires (Holds s))
    (hanswer : ∀ t e a, l = .act t e a → ∀ o, requires e a o → Holds q.shared o)
    (hothers : ∀ t e a, l = .act t e a → ∀ t' m, t' ≠ t → p.threads t' = some m →
      Holds p.shared m.head → Holds q.shared m.head)
    (h : p.Relies requires Holds) : q.Relies requires Holds := by
  intro t m hm
  by_cases ht : l.thread = t
  · subst ht
    cases hstep with
    | start c _ =>
        cases (update_self ..).symm.trans hm
        exact hprogram c _
    | @act _ t e next i a s hact heffect =>
        cases (update_self ..).symm.trans hm
        exact ((h t _ hact).2 a).mono (hanswer t e a rfl _)
    | exit _ => cases (update_self ..).symm.trans hm
  · rw [hstep.other ht] at hm
    have hold := h t m hm
    cases hstep with
    | start | exit => exact hold
    | act => exact hold.mono (hothers _ _ _ rfl t m (Ne.symm ht) hm)

end Relies

/-! ## What the results tell of the run -/

section Latest

variable {effect : Nat → (e : E) → I → σ → Option (R e × σ)} {program : C → Thread E R α}
  {init : σ} {past : List (Pool σ E R α × Label C E R α)} {p : Pool σ E R α} {t : Nat}

/-- The latest step of a thread. -/
def latest (t : Nat) (past : List (Pool σ E R α × Label C E R α)) : Option (Label C E R α) :=
  (past.find? fun x => x.2.thread = t).map (·.2)

/-- What is known of a result after the step, which is none or an action. -/
def Known (accounts : E → α → Prop) (plain : α → Prop) : Option (Label C E R α) → α → Prop
  | some (.act _ e _) => accounts e
  | _ => plain

theorem latest_self {l : Label C E R α} (h : l.thread = t) : latest t ((p, l) :: past) = some l := by
  unfold latest
  rw [List.find?_cons_of_pos (by simpa using h)]
  rfl

theorem latest_other {l : Label C E R α} (h : l.thread ≠ t) :
    latest t ((p, l) :: past) = latest t past := by
  unfold latest
  rw [List.find?_cons_of_neg (by simpa using h)]

theorem latest_thread {l : Label C E R α} (h : latest t past = some l) : l.thread = t := by
  obtain ⟨x, hx, rfl⟩ := Option.map_eq_some_iff.mp h
  simpa using List.find?_some hx

theorem Run.known {accounts : E → α → Prop} {plain : α → Prop}
    (hprogram : ∀ c, (program c).Ends accounts plain) (hrun : Run effect program init past p) :
    ∀ t m, p.threads t = some m → m.Ends accounts (Known accounts plain (latest t past)) := by
  induction hrun with
  | init =>
      intro t m hm
      cases hm
  | @step past p q l _ hstep ih =>
      intro t m hm
      by_cases ht : l.thread = t
      · rw [latest_self ht]
        subst ht
        cases hstep with
        | start c _ =>
            cases (update_self ..).symm.trans hm
            exact hprogram c
        | act hact _ =>
            cases (update_self ..).symm.trans hm
            exact ih _ _ hact _
        | exit _ => cases (update_self ..).symm.trans hm
      · rw [latest_other ht]
        rw [hstep.other ht] at hm
        exact ih t m hm

end Latest

end Pool
