import Mathlib.Data.List.Induction

/-!
# Logs of what enters and leaves

A log tells of events, some of which take a thing in and some of which give it up. What the
log has seen enter is there as long as it has not left since.
-/

namespace EventLog

variable {α : Type} {p q : α → Prop} {log : List α} {e : α} {here here' : Prop}

/-- One event is a `p`, and none after it is a `q`. -/
def Since (p q : α → Prop) (log : List α) : Prop :=
  ∃ before e after, log = before ++ e :: after ∧ p e ∧ ∀ x ∈ after, ¬ q x

theorem Since.mem (h : Since p q log) : ∃ e ∈ log, p e := by
  obtain ⟨before, e, after, rfl, hp, _⟩ := h
  exact ⟨e, List.mem_append_right _ List.mem_cons_self, hp⟩

theorem since_snoc : Since p q (log ++ [e]) ↔ p e ∨ Since p q log ∧ ¬ q e := by
  constructor
  · rintro ⟨before, x, after, heq, hp, hafter⟩
    rcases List.eq_nil_or_concat after with rfl | ⟨rest, y, rfl⟩
    · obtain ⟨_, hx⟩ := List.append_inj' heq rfl
      cases hx
      exact Or.inl hp
    · rw [List.concat_eq_append] at heq hafter
      rw [← List.cons_append, ← List.append_assoc] at heq
      obtain ⟨hlog, hy⟩ := List.append_inj' heq rfl
      cases hy
      refine Or.inr ⟨⟨before, x, rest, hlog, hp, fun z hz => ?_⟩, ?_⟩
      · exact hafter z (List.mem_append_left _ hz)
      · exact hafter e (List.mem_append_right _ List.mem_cons_self)
  · rintro (hp | ⟨⟨before, x, after, rfl, hp, hafter⟩, hq⟩)
    · exact ⟨log, e, [], rfl, hp, fun _ h => absurd h List.not_mem_nil⟩
    · refine ⟨before, x, after ++ [e], by simp, hp, fun z hz => ?_⟩
      rcases List.mem_append.mp hz with hz | hz
      · exact hafter z hz
      · rw [List.mem_singleton.mp hz]
        exact hq

/-- One look at each event tells. -/
theorem foldl_eq_true [DecidablePred p] [DecidablePred q] :
    log.foldl (fun before e => decide (p e) || before && !decide (q e)) false = true ↔
      Since p q log := by
  induction log using List.reverseRecOn with
  | nil =>
      constructor
      · intro h
        cases h
      · intro h
        obtain ⟨_, he, _⟩ := h.mem
        cases he
  | append_singleton log e ih =>
      rw [since_snoc, List.foldl_append, List.foldl_cons, List.foldl_nil, ← ih]
      simp

instance [DecidablePred p] [DecidablePred q] : Decidable (Since p q log) :=
  decidable_of_iff _ foldl_eq_true

/-- What has entered is there exactly if it has not left since. -/
def Tells (enters leaves : α → Prop) (log : List α) (here : Prop) : Prop :=
  (∃ e ∈ log, enters e) → (here ↔ ¬ Since leaves enters log)

theorem tells_of_fresh (h : ∀ e ∈ log, ¬ p e) : Tells p q log here := by
  rintro ⟨e, he, hp⟩
  exact absurd hp (h e he)

/-- One more event. -/
theorem Tells.snoc (h : Tells p q log here) (hone : p e → ¬ q e)
    (hnext : here' ↔ p e ∨ here ∧ ¬ q e) : Tells p q (log ++ [e]) here' := by
  rintro ⟨x, hx, hp⟩
  rw [hnext, since_snoc]
  by_cases he : p e
  · simp [he, hone he]
  · have hold : here ↔ ¬ Since q p log := by
      refine h ⟨x, ?_, hp⟩
      rcases List.mem_append.mp hx with hx | hx
      · exact hx
      · rw [List.mem_singleton.mp hx] at hp
        exact absurd hp he
    simp only [he, hold, false_or, not_false_eq_true, and_true, not_or]
    exact And.comm

end EventLog
