import Mathlib.Init
import Mathlib.Tactic.Basic

/-!
# State programs with undefined behaviour

A program reads and rewrites a state and either returns or has no defined
outcome. `Spec T` speaks about the outcome, and when `T` holds also says that
there is one: `T` collects the assumptions under which undefined behaviour is
excluded, and `Spec False` is partial correctness. The rules of this file are the
only way the rest of the development takes a program apart.
-/

/-- A program over the state `σ`. `none` is undefined behaviour: a null or
out-of-range access, a division by zero, an endless loop. -/
def Prog (σ α : Type) : Type := σ → Option (α × σ)

namespace Prog

variable {σ τ α β : Type}

instance : Monad (Prog σ) where
  pure a := fun s => some (a, s)
  bind m f := fun s =>
    match m s with
    | none => none
    | some (a, t) => f a t

/-- The current state. -/
def read : Prog σ σ := fun s => some (s, s)

/-- Rewrite the state. -/
def modify (f : σ → σ) : Prog σ Unit := fun s => some ((), f s)

/-- Rewrite the state and answer with a value computed from the old one. -/
def modifyGet (f : σ → α × σ) : Prog σ α := fun s => some (f s)

/-- Undefined behaviour. -/
def undefined : Prog σ α := fun _ => none

/-- A value that must be there. -/
def deref (o : Option α) : Prog σ α := fun s => o.map fun a => (a, s)

/-- What the program text relies on without checking it. -/
def require (c : Prop) [Decidable c] : Prog σ Unit := fun s => if c then some ((), s) else none

/-- Run `m` when the test holds. -/
def when (c : Bool) (m : Prog σ Unit) : Prog σ Unit := if c then m else pure ()

/-- Run a program on a component of the state. -/
def zoom (get : σ → τ) (set : σ → τ → σ) (m : Prog τ α) : Prog σ α := fun s =>
  match m (get s) with
  | none => none
  | some (a, u) => some (a, set s u)

/-- A loop over a list. -/
def forEach (xs : List α) (body : α → Prog σ Unit) : Prog σ Unit :=
  match xs with
  | [] => pure ()
  | x :: rest => do
      body x
      forEach rest body

/-- A loop over a list that is left early at the first result for which
`stop` holds, and answers `done` when it reaches the end. -/
def forUntil (stop : β → Bool) (done : β) (xs : List α) (body : α → Prog σ β) : Prog σ β :=
  match xs with
  | [] => pure done
  | x :: rest => do
      let b ← body x
      if stop b then pure b else forUntil stop done rest body

/-- Bounded retries: attempt number `i` first, then the remedy, for `n`
attempts. -/
def retry (attempt : Nat → Prog σ (Option α)) (remedy : Prog σ Unit) :
    Nat → Nat → Prog σ (Option α)
  | _, 0 => pure none
  | i, n + 1 => do
      match ← attempt i with
      | some a => pure (some a)
      | none => do
          remedy
          retry attempt remedy (i + 1) n

/-- The retries that start in `s` make attempt number `i` in the state `t`. -/
inductive Tries (attempt : Nat → Prog σ (Option α)) (remedy : Prog σ Unit) (s : σ) : Nat → σ → Prop
  | first : Tries attempt remedy s 0 s
  | next {i : Nat} {t u v : σ} : Tries attempt remedy s i t → attempt i t = some (none, u) →
      remedy u = some ((), v) → Tries attempt remedy s (i + 1) v

/-! ## Specifications -/

/-- The outcome of `m` from `s` satisfies `Q`; without an outcome, `T` fails. -/
def Spec (T : Prop) (m : Prog σ α) (Q : α → σ → Prop) (s : σ) : Prop :=
  match m s with
  | none => ¬ T
  | some (a, t) => Q a t

section Rules

variable {T : Prop} {m : Prog σ α} {f : α → Prog σ β} {s : σ}

theorem Spec.outcome {Q : α → σ → Prop} (h : Spec T m Q s) {a : α} {t : σ}
    (hm : m s = some (a, t)) : Q a t := by
  unfold Spec at h
  rwa [hm] at h

/-- A total specification yields the outcome. -/
theorem Spec.defined {Q : α → σ → Prop} (h : Spec T m Q s) (hT : T) :
    ∃ a t, m s = some (a, t) ∧ Q a t := by
  unfold Spec at h
  cases hm : m s with
  | none =>
      rw [hm] at h
      exact absurd hT h
  | some result =>
      rw [hm] at h
      exact ⟨result.1, result.2, rfl, h⟩

theorem Spec.mono {Q R : α → σ → Prop} (h : Spec T m Q s) (hQR : ∀ a t, Q a t → R a t) :
    Spec T m R s := by
  unfold Spec at h ⊢
  cases hm : m s with
  | none => rwa [hm] at h
  | some result =>
      rw [hm] at h
      exact hQR _ _ h

/-- The outcome may be used as one. -/
theorem Spec.imp {Q R : α → σ → Prop} (h : Spec T m Q s)
    (hQR : ∀ a t, m s = some (a, t) → Q a t → R a t) : Spec T m R s := by
  unfold Spec at h ⊢
  cases hm : m s with
  | none => rwa [hm] at h
  | some result =>
      rw [hm] at h
      exact hQR _ _ hm h

/-- Fewer outcomes are excluded under a stronger assumption. -/
theorem Spec.weaken {T' : Prop} {Q : α → σ → Prop} (h : Spec T m Q s) (hT : T' → T) :
    Spec T' m Q s := by
  unfold Spec at h ⊢
  cases hm : m s with
  | none =>
      rw [hm] at h
      exact fun ht => h (hT ht)
  | some result => rwa [hm] at h

/-- Partial correctness is correctness under an assumption that fails. -/
theorem Spec.partial_of {Q : α → σ → Prop} (h : ∀ a t, m s = some (a, t) → Q a t) :
    Spec False m Q s := by
  unfold Spec
  cases hm : m s with
  | none => exact id
  | some result => exact h _ _ hm

/-- A program goes on from the outcome of its first part. -/
theorem bind_of_eq {a : α} {t : σ} (h : m s = some (a, t)) (f : α → Prog σ β) :
    (m >>= f) s = f a t := by
  change (match m s with | none => none | some (a, t) => f a t) = _
  rw [h]

theorem bind_eq_some {b : β} {u : σ} :
    (m >>= f) s = some (b, u) ↔ ∃ a t, m s = some (a, t) ∧ f a t = some (b, u) := by
  constructor
  · intro h
    cases hm : m s with
    | none =>
        have : (m >>= f) s = none := by
          change (match m s with | none => none | some (a, t) => f a t) = _
          rw [hm]
        rw [this] at h
        cases h
    | some result =>
        rw [bind_of_eq hm] at h
        exact ⟨_, _, rfl, h⟩
  · rintro ⟨a, t, hm, h⟩
    rwa [bind_of_eq hm]

/-- A program may be replaced by one with the same outcome. -/
theorem bind_congr_left {m' : Prog σ α} {s' : σ} (h : m s = m' s') (f : α → Prog σ β) :
    (m >>= f) s = (m' >>= f) s' := by
  change (match m s with | none => none | some (a, t) => f a t) = _
  rw [h]
  rfl

@[simp] theorem spec_pure (a : α) (Q : α → σ → Prop) : Spec T (pure a) Q s ↔ Q a s := Iff.rfl

@[simp] theorem spec_bind (Q : β → σ → Prop) :
    Spec T (m >>= f) Q s ↔ Spec T m (fun a t => Spec T (f a) Q t) s := by
  change (match (match m s with | none => none | some (a, t) => f a t) with
    | none => ¬ T | some (a, t) => Q a t) ↔ _
  unfold Spec
  cases m s with
  | none => rfl
  | some result => rfl

/-- What the rest of a program answers from every state. -/
theorem spec_rest {Q : β → σ → Prop} (h : ∀ a t, Spec False (f a) Q t) : Spec False (m >>= f) Q s := by
  rw [spec_bind]
  exact .partial_of fun a t _ => h a t

@[simp] theorem spec_read (Q : σ → σ → Prop) : Spec T read Q s ↔ Q s s := Iff.rfl

@[simp] theorem spec_modify (g : σ → σ) (Q : Unit → σ → Prop) :
    Spec T (modify g) Q s ↔ Q () (g s) := Iff.rfl

@[simp] theorem spec_modifyGet (g : σ → α × σ) (Q : α → σ → Prop) :
    Spec T (modifyGet g) Q s ↔ Q (g s).1 (g s).2 := Iff.rfl

@[simp] theorem spec_undefined (Q : α → σ → Prop) : Spec T undefined Q s ↔ ¬ T := Iff.rfl

theorem spec_deref {o : Option α} {Q : α → σ → Prop} (hT : T → o ≠ none)
    (h : ∀ a, o = some a → Q a s) : Spec T (deref o) Q s := by
  unfold Spec deref
  cases o with
  | none => exact fun ht => hT ht rfl
  | some a => exact h a rfl

theorem spec_require {c : Prop} [Decidable c] {Q : Unit → σ → Prop} (hT : T → c)
    (h : c → Q () s) : Spec T (require c) Q s := by
  unfold Spec require
  by_cases hc : c
  · rw [if_pos hc]
    exact h hc
  · rw [if_neg hc]
    exact fun ht => hc (hT ht)

theorem spec_ite {c : Prop} [Decidable c] {m₁ m₂ : Prog σ α} {Q : α → σ → Prop}
    (h₁ : c → Spec T m₁ Q s) (h₂ : ¬ c → Spec T m₂ Q s) : Spec T (if c then m₁ else m₂) Q s := by
  split
  next hc => exact h₁ hc
  next hc => exact h₂ hc

theorem spec_when {c : Bool} {m : Prog σ Unit} {Q : Unit → σ → Prop}
    (h₁ : c = true → Spec T m Q s) (h₂ : c = false → Q () s) : Spec T (when c m) Q s := by
  cases c with
  | true => exact h₁ rfl
  | false => simpa [when] using h₂ rfl

theorem spec_zoom {get : σ → τ} {set : σ → τ → σ} {m : Prog τ α} {Q : α → σ → Prop}
    (h : Spec T m (fun a u => Q a (set s u)) (get s)) : Spec T (zoom get set m) Q s := by
  unfold Spec at h
  unfold Spec zoom
  cases hm : m (get s) with
  | none => rwa [hm] at h
  | some result => rwa [hm] at h

/-- Loop rule: `I rest t` is what holds before the elements `rest`. -/
theorem spec_forEach {γ : Type} {body : γ → Prog σ Unit} (I : List γ → σ → Prop)
    (hbody : ∀ x rest t, I (x :: rest) t → Spec T (body x) (fun _ u => I rest u) t) :
    ∀ (xs : List γ) (s : σ), I xs s → Spec T (forEach xs body) (fun _ t => I [] t) s
  | [], s, h => h
  | x :: rest, s, h => by
      simp only [forEach, spec_bind]
      exact (hbody x rest s h).mono fun _ t ht => spec_forEach I hbody rest t ht

/-- Rule for a loop with an early exit: a result that does not stop the loop
re-establishes the invariant for the rest, one that does gives the
postcondition at once. -/
theorem spec_forUntil {γ : Type} {stop : β → Bool} {done : β} {body : γ → Prog σ β}
    (I : List γ → σ → Prop) (Q : β → σ → Prop)
    (hbody : ∀ x rest t, I (x :: rest) t →
      Spec T (body x) (fun b u => if stop b then Q b u else I rest u) t)
    (hdone : ∀ t, I [] t → Q done t) :
    ∀ (xs : List γ) (s : σ), I xs s → Spec T (forUntil stop done xs body) Q s
  | [], s, h => hdone s h
  | x :: rest, s, h => by
      simp only [forUntil, spec_bind]
      refine (hbody x rest s h).mono fun b t hb => ?_
      by_cases hstop : stop b = true
      · rw [if_pos hstop] at hb ⊢
        exact hb
      · rw [if_neg hstop] at hb ⊢
        exact spec_forUntil I Q hbody hdone rest t hb

/-- Rule for bounded retries: a failed attempt and the remedy keep `I`, a
successful attempt gives the postcondition. -/
theorem spec_retry {attempt : Nat → Prog σ (Option α)} {remedy : Prog σ Unit}
    (I : σ → Prop) (Q : Option α → σ → Prop)
    (hattempt : ∀ i t, I t →
      Spec T (attempt i) (fun r u => match r with | some a => Q (some a) u | none => I u) t)
    (hremedy : ∀ t, I t → Spec T remedy (fun _ u => I u) t)
    (hfail : ∀ t, I t → Q none t) :
    ∀ (n i : Nat) (s : σ), I s → Spec T (retry attempt remedy i n) Q s
  | 0, _, s, h => hfail s h
  | n + 1, i, s, h => by
      simp only [retry, spec_bind]
      refine (hattempt i s h).mono fun r t hr => ?_
      cases r with
      | some a => exact hr
      | none =>
          simp only [spec_bind]
          exact (hremedy t hr).mono fun _ u hu =>
            spec_retry I Q hattempt hremedy hfail n (i + 1) u hu

end Rules

/-! ## Retries -/

section Retries

variable {attempt : Nat → Prog σ (Option α)} {remedy : Prog σ Unit} {s t : σ} {n i : Nat}

/-- The retries from the first attempt on come to attempt `i`. -/
theorem Tries.retry (h : Tries attempt remedy s i t) (n : Nat) :
    Prog.retry attempt remedy 0 (i + n) s = Prog.retry attempt remedy i n t := by
  induction h generalizing n with
  | first => rw [Nat.zero_add]
  | @next i t u v _ hattempt hremedy ih =>
      rw [Nat.add_right_comm, Nat.add_assoc, ih (n + 1)]
      have hfailed : Prog.retry attempt remedy i (n + 1) t =
          (remedy >>= fun _ => Prog.retry attempt remedy (i + 1) n) u := bind_of_eq hattempt _
      rw [hfailed, bind_of_eq hremedy]

end Retries

end Prog
