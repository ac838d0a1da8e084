import Mathlib.Logic.Relation

/-!
# Runs of a labelled transition system

`Moves step P` are the runs all of whose labels satisfy `P`. A program that may
only do certain things is described by the labels it is allowed; what holds of
every allowed step holds of the run.
-/

/-- Finite runs of `step` with labels in `P`. -/
def Moves {σ L : Type} (step : L → σ → σ → Prop) (P : L → Prop) : σ → σ → Prop :=
  Relation.ReflTransGen fun x y => ∃ a, P a ∧ step a x y

namespace Moves

variable {σ L : Type} {step : L → σ → σ → Prop} {P Q : L → Prop} {x y z : σ}

theorem refl : Moves step P x x := Relation.ReflTransGen.refl

theorem single {a : L} (ha : P a) (h : step a x y) : Moves step P x y :=
  Relation.ReflTransGen.single ⟨a, ha, h⟩

theorem trans (h : Moves step P x y) (h' : Moves step P y z) : Moves step P x z :=
  Relation.ReflTransGen.trans h h'

theorem tail {a : L} (h : Moves step P x y) (ha : P a) (h' : step a y z) : Moves step P x z :=
  h.trans (single ha h')

/-- What is allowed to do less is allowed to do more. -/
theorem mono (h : Moves step P x y) (hPQ : ∀ a, P a → Q a) : Moves step Q x y :=
  Relation.ReflTransGen.mono (fun _ _ hstep => hstep.imp fun a h => h.imp_left (hPQ a)) _ _ h

/-- Invariant rule. -/
theorem invariant (I : σ → Prop) (hstep : ∀ a x y, P a → step a x y → I x → I y)
    (h : Moves step P x y) (hx : I x) : I y := by
  induction h with
  | refl => exact hx
  | tail _ hlast ih =>
      obtain ⟨a, ha, hlast⟩ := hlast
      exact hstep a _ _ ha hlast ih

/-- Rule for two-state properties: under an invariant, a reflexive and transitive
relation that every step satisfies relates the ends of a run. -/
theorem relation (I : σ → Prop) (R : σ → σ → Prop) (hinv : ∀ a x y, P a → step a x y → I x → I y)
    (hrefl : ∀ x, R x x) (htrans : ∀ x y z, R x y → R y z → R x z)
    (hstep : ∀ a x y, P a → step a x y → I x → R x y)
    (h : Moves step P x y) (hx : I x) : R x y := by
  induction h with
  | refl => exact hrefl _
  | tail hfirst hlast ih =>
      have hy := invariant I hinv hfirst hx
      obtain ⟨a, ha, hlast⟩ := hlast
      exact htrans _ _ _ ih (hstep a _ _ ha hlast hy)

end Moves
