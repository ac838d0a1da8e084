import StarCache.Foundation.Interleaving
import StarCache.Foundation.Program

/-!
# Threads that run alone

A thread may come from its start to its end without an action of any other. A program over a
state of its own is such a thread when the shared state is a view of its state: what it does step
by step is either not in the view, or is an action on it.
-/

/-! ## Programs that leave a view alone -/

namespace Prog

variable {S σ α β γ : Type} {view : S → σ}

/-- Whatever the program does cannot be seen. -/
def Hidden (view : S → σ) (m : Prog S α) : Prop := ∀ s a t, m s = some (a, t) → view t = view s

theorem hidden_pure (a : α) : Hidden view (pure a) := fun _ _ _ h => by
  cases h
  rfl

theorem hidden_read : Hidden view read := fun _ _ _ h => by
  cases h
  rfl

theorem hidden_modify {f : S → S} (hf : ∀ s, view (f s) = view s) : Hidden view (modify f) :=
  fun s _ _ h => by
    cases h
    exact hf s

theorem hidden_modifyGet {f : S → α × S} (hf : ∀ s, view (f s).2 = view s) :
    Hidden view (modifyGet f) := fun s a t h => by
  have heq : f s = (a, t) := Option.some.inj h
  rw [← hf s, heq]

theorem hidden_deref (o : Option α) : Hidden view (deref o) := fun _ _ _ h => by
  obtain ⟨_, _, heq⟩ := Option.map_eq_some_iff.mp h
  cases heq
  rfl

theorem hidden_require (c : Prop) [Decidable c] : Hidden view (require c) := fun s _ _ h => by
  unfold require at h
  split at h
  next =>
    cases h
    rfl
  next => cases h

theorem Hidden.bind {m : Prog S α} {f : α → Prog S β} (hm : Hidden view m)
    (hf : ∀ a, Hidden view (f a)) : Hidden view (m >>= f) := fun s b u h => by
  obtain ⟨a, t, hrun, hrest⟩ := bind_eq_some.mp h
  exact (hf a t b u hrest).trans (hm s a t hrun)

theorem hidden_ite {c : Prop} [Decidable c] {m₁ m₂ : Prog S α} (h₁ : Hidden view m₁)
    (h₂ : Hidden view m₂) : Hidden view (if c then m₁ else m₂) := by
  split
  next => exact h₁
  next => exact h₂

theorem hidden_when {c : Bool} {m : Prog S Unit} (h : Hidden view m) : Hidden view (when c m) :=
  hidden_ite h (hidden_pure ())

theorem hidden_zoom {τ : Type} {get : S → τ} {set : S → τ → S} {m : Prog τ α}
    (hset : ∀ s u, view (set s u) = view s) : Hidden view (zoom get set m) := fun s a t h => by
  unfold zoom at h
  split at h
  next => cases h
  next =>
    cases h
    exact hset s _

theorem hidden_forEach {xs : List γ} {body : γ → Prog S Unit} (h : ∀ x, Hidden view (body x)) :
    Hidden view (forEach xs body) := by
  induction xs with
  | nil => exact hidden_pure ()
  | cons x rest ih => exact (h x).bind fun _ => ih

theorem hidden_forUntil {stop : β → Bool} {done : β} {xs : List γ} {body : γ → Prog S β}
    (h : ∀ x, Hidden view (body x)) : Hidden view (forUntil stop done xs body) := by
  induction xs with
  | nil => exact hidden_pure done
  | cons x rest ih => exact (h x).bind fun b => hidden_ite (hidden_pure b) ih

end Prog

/-! ## Threads -/

namespace Thread

variable {E I σ S : Type} {R : E → Type} {α β γ : Type}

section Solo

variable (effect : (e : E) → I → σ → Option (R e × σ))

/-- From `s` the thread comes to its end in `t`, with the result `a`, and nobody else acts. -/
inductive Solo : Thread E R α → σ → α → σ → Prop
  | done (a : α) (s : σ) : Solo (.done a) s a s
  | act {e : E} {next : R e → Thread E R α} {i : I} {r : R e} {s u t : σ} {a : α} :
      effect e i s = some (r, u) → Solo (next r) u a t → Solo (.act e next) s a t

variable {effect}

theorem Solo.bind {m : Thread E R α} {f : α → Thread E R β} {s u t : σ} {a : α} {b : β}
    (hm : Solo effect m s a u) (hf : Solo effect (f a) u b t) : Solo effect (m >>= f) s b t := by
  induction hm with
  | done a s => exact hf
  | act heffect _ ih => exact .act heffect (ih hf)

end Solo

variable {effect : (e : E) → I → σ → Option (R e × σ)} {view : S → σ}

/-- From `s` on the thread does what the program does, and ends with `g` of its outcome. -/
def Mirrors (effect : (e : E) → I → σ → Option (R e × σ)) (view : S → σ) (m : Thread E R β)
    (f : Prog S α) (g : α → S → β) (s : S) : Prop :=
  ∀ a t, f s = some (a, t) → Solo effect m (view s) (g a t) (view t)

section Rules

variable {m : Thread E R β} {f : Prog S α} {g : α → S → β} {s : S} {α' β' : Type}
  {k : β → Thread E R β'} {h : α → Prog S α'} {g' : α' → S → β'}

theorem mirrors_pure {a : α} {b : β} (hg : g a s = b) :
    Mirrors effect view (pure b) (pure a) g s := fun _ _ hrun => by
  cases hrun
  exact hg ▸ .done _ _

theorem Mirrors.bind (hm : Mirrors effect view m f g s)
    (hk : ∀ a t, f s = some (a, t) → Mirrors effect view (k (g a t)) (h a) g' t) :
    Mirrors effect view (m >>= k) (f >>= h) g' s := fun b u hrun => by
  obtain ⟨a, t, hfirst, hrest⟩ := Prog.bind_eq_some.mp hrun
  exact (hm a t hfirst).bind (hk a t hfirst b u hrest)

/-- A part of the program that cannot be seen. -/
theorem Mirrors.hidden {f : Prog S α'} {h : α' → Prog S α} (hf : Prog.Hidden view f)
    (hm : ∀ a t, f s = some (a, t) → Mirrors effect view m (h a) g t) :
    Mirrors effect view m (f >>= h) g s := fun b u hrun => by
  obtain ⟨a, t, hfirst, hrest⟩ := Prog.bind_eq_some.mp hrun
  rw [← hf s a t hfirst]
  exact hm a t hfirst b u hrest

theorem Mirrors.read {h : S → Prog S α} (hm : Mirrors effect view m (h s) g s) :
    Mirrors effect view m (Prog.read >>= h) g s :=
  .hidden Prog.hidden_read fun _ _ hrun => by
    cases hrun
    exact hm

/-- What the program does last cannot be seen. -/
theorem Mirrors.last {h : α → Prog S α'} {g' : α' → S → β} (hm : Mirrors effect view m f g s)
    (hh : ∀ a, Prog.Hidden view (h a))
    (hg : ∀ a t b u, f s = some (a, t) → h a t = some (b, u) → g' b u = g a t) :
    Mirrors effect view m (f >>= h) g' s := fun b u hrun => by
  obtain ⟨a, t, hfirst, hrest⟩ := Prog.bind_eq_some.mp hrun
  rw [hh a t b u hrest, hg a t b u hfirst hrest]
  exact hm a t hfirst

/-- A program that cannot be seen. -/
theorem mirrors_hidden {b : β} (hf : Prog.Hidden view f)
    (hg : ∀ a t, f s = some (a, t) → g a t = b) :
    Mirrors effect view (pure b) f g s := fun a t hrun => by
  rw [hf s a t hrun, hg a t hrun]
  exact .done _ _

theorem Mirrors.congr (hm : Mirrors effect view m f g s) {g' : α → S → β}
    (hg : ∀ a t, f s = some (a, t) → g' a t = g a t) : Mirrors effect view m f g' s :=
  fun a t hrun => hg a t hrun ▸ hm a t hrun

/-- A part of the program that is one action. -/
theorem mirrors_perform {e : E} {g : α → S → R e}
    (h : ∀ a t, f s = some (a, t) → ∃ i, effect e i (view s) = some (g a t, view t)) :
    Mirrors effect view (perform e) f g s := fun a t hrun => by
  obtain ⟨i, heffect⟩ := h a t hrun
  exact .act heffect (.done _ _)

/-- An action of the thread alone. -/
theorem Mirrors.ask {e : E} {i : I} {r : R e} {k : R e → Thread E R β}
    (heffect : effect e i (view s) = some (r, view s)) (hm : Mirrors effect view (k r) f g s) :
    Mirrors effect view (perform e >>= k) f g s := fun a t hrun => .act heffect (hm a t hrun)

theorem mirrors_undefined : Mirrors effect view m (Prog.undefined : Prog S α) g s :=
  fun _ _ hrun => by cases hrun

theorem Mirrors.require {c : Prop} [Decidable c] {h : Unit → Prog S α}
    (hm : c → Mirrors effect view m (h ()) g s) :
    Mirrors effect view m (Prog.require c >>= h) g s := fun a t hrun => by
  obtain ⟨_, _, hfirst, hrest⟩ := Prog.bind_eq_some.mp hrun
  unfold Prog.require at hfirst
  split at hfirst
  next hc =>
    cases hfirst
    exact hm hc a t hrest
  next => cases hfirst

/-! ### Loops -/

theorem mirrors_forEach {xs : List γ} {m : γ → Thread E R Unit} {f : γ → Prog S Unit}
    (h : ∀ x s, Mirrors effect view (m x) (f x) (fun _ _ => ()) s) (s : S) :
    Mirrors effect view (forEach xs m) (Prog.forEach xs f) (fun _ _ => ()) s := by
  induction xs generalizing s with
  | nil => exact mirrors_pure rfl
  | cons x rest ih => exact (h x s).bind fun _ t _ => ih t

theorem mirrors_forUntil {stop : β → Bool} {done : β} {xs : List γ} {m : γ → Thread E R β}
    {f : γ → Prog S β} (h : ∀ x s, Mirrors effect view (m x) (f x) (fun b _ => b) s) (s : S) :
    Mirrors effect view (forUntil stop done xs m) (Prog.forUntil stop done xs f)
      (fun b _ => b) s := by
  induction xs generalizing s with
  | nil => exact mirrors_pure rfl
  | cons x rest ih =>
      refine (h x s).bind fun b t _ => ?_
      split
      next => exact mirrors_pure rfl
      next => exact ih t

/-- The attempts of the thread answer `g` of those of the program. -/
theorem mirrors_retry {attempt : Thread E R (Option β)} {remedy : Thread E R Unit}
    {attempt' : Nat → Prog S (Option α)} {remedy' : Prog S Unit} {g : α → S → β}
    (hattempt : ∀ i s, Mirrors effect view attempt (attempt' i) (fun o t => o.map (g · t)) s)
    (hremedy : ∀ s, Mirrors effect view remedy remedy' (fun _ _ => ()) s) (n i : Nat) (s : S) :
    Mirrors effect view (retry attempt remedy n) (Prog.retry attempt' remedy' i n)
      (fun o t => o.map (g · t)) s := by
  induction n generalizing i s with
  | zero => exact mirrors_pure rfl
  | succ n ih =>
      refine (hattempt i s).bind fun o t _ => ?_
      cases o with
      | some a => exact mirrors_pure rfl
      | none => exact (hremedy t).bind fun _ u _ => ih (i + 1) u

end Rules

end Thread

/-! ## Calls one after the other -/

namespace Pool

open Function Thread

variable {σ E C I α : Type} {R : E → Type}

/-- The results of the calls that have ended, latest first. -/
def results (past : List (Pool σ E R α × Label C E R α)) : List α :=
  past.filterMap fun x =>
    match x.2 with
    | .exit _ a => some a
    | _ => none

variable {effect : Nat → (e : E) → I → σ → Option (R e × σ)} {program : C → Thread E R α}
  {init : σ} {past : List (Pool σ E R α × Label C E R α)} {p : Pool σ E R α}

/-- A thread that comes to its end alone does so in a run. -/
theorem Run.solo (hrun : Run effect program init past p) {t : Nat} {m : Thread E R α}
    (ht : p.threads t = some m) {a : α} {s : σ} (hm : Solo (effect t) m p.shared a s) :
    ∃ past', Run effect program init past' ⟨s, update p.threads t (some (.done a))⟩ ∧
      results past' = results past := by
  generalize hshared : p.shared = s₀ at hm
  induction hm generalizing past p with
  | done a s =>
      refine ⟨past, ?_, rfl⟩
      rw [← hshared, ← ht, update_eq_self]
      exact hrun
  | @act e next i r s₀ u t' a heffect _ ih =>
      subst hshared
      obtain ⟨past', hrun', hresults⟩ := ih (hrun.step (.act ht heffect)) (update_self ..) rfl
      refine ⟨past', ?_, hresults⟩
      rwa [update_idem] at hrun'

/-- A call that comes to its end alone, when nobody else is there. -/
theorem Run.call (hrun : Run effect program init past ⟨p.shared, fun _ => none⟩) (t : Nat) (c : C)
    {a : α} {s : σ} (hc : Solo (effect t) (program c) p.shared a s) :
    ∃ past', Run effect program init past' ⟨s, fun _ => none⟩ ∧
      results past' = a :: results past := by
  obtain ⟨past', hrun', hresults⟩ := (hrun.step (.start c rfl)).solo (t := t) (update_self ..) hc
  have hend := hrun'.step (.exit (t := t) (a := a) (update_self ..))
  dsimp only at hend
  rw [update_idem, update_idem, update_eq_self] at hend
  exact ⟨_, hend, congrArg (a :: ·) hresults⟩

end Pool
