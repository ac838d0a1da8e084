import StarCache.Foundation.RelyGuarantee

/-!
# The order of actions in a text

What a thread may do next can be judged by what it has done since its call: `Obeys` says so of
the text, whatever the answers are, and `Run.obeys` of the threads of a run.
-/

namespace Thread

variable {E : Type} {R : E → Type} {α β γ : Type} {A : E → Prop} {m : Thread E R α}

/-- All actions of the text satisfy `A`. -/
def Only (A : E → Prop) (m : Thread E R α) : Prop :=
  m.Guarded (fun _ _ o => ∀ e, o = some e → A e) fun o => ∀ e, o = some e → A e

theorem only_pure {a : α} : (pure a : Thread E R α).Only A := fun _ h => nomatch h

theorem only_perform {e : E} (h : A e) : (perform e : Thread E R (R e)).Only A :=
  guarded_perform (fun _ heq => Option.some.inj heq ▸ h) fun _ _ h => nomatch h

theorem Only.bind {f : α → Thread E R β} (h : m.Only A) (hf : ∀ a, (f a).Only A) :
    (m >>= f).Only A := Guarded.bind (fun _ _ _ _ ho => ho) (fun _ _ ho => ho) h hf

/-- An action before the rest. -/
theorem only_act {e : E} {f : R e → Thread E R β} (h : A e) (hf : ∀ a, (f a).Only A) :
    (perform e >>= f).Only A := (only_perform h).bind hf

theorem only_when {c : Bool} {m : Thread E R Unit} (h : m.Only A) : (when c m).Only A := by
  cases c with
  | false => exact only_pure
  | true => exact h

theorem only_forEach {xs : List γ} {body : γ → Thread E R Unit} (h : ∀ x, (body x).Only A) :
    (forEach xs body).Only A :=
  guarded_forEach (fun _ _ _ _ ho => ho) (fun _ h => nomatch h) h

theorem only_forUntil {stop : β → Bool} {done : β} {xs : List γ} {body : γ → Thread E R β}
    (h : ∀ x, (body x).Only A) : (forUntil stop done xs body).Only A :=
  guarded_forUntil (fun _ _ _ _ ho => ho) (fun _ h => nomatch h) h

theorem only_retry {attempt : Thread E R (Option α)} {remedy : Thread E R Unit}
    (hattempt : attempt.Only A) (hremedy : remedy.Only A) (n : Nat) :
    (retry attempt remedy n).Only A :=
  guarded_retry (fun _ _ _ _ ho => ho) (fun _ h => nomatch h) hattempt hremedy n

end Thread

namespace Pool

open Function

variable {σ E C I α β : Type} {R : E → Type}

/-- Each action may follow what has been done, and so may the result. -/
def Obeys (May : Deeds E R → E → Prop) (Q : α → Deeds E R → Prop) :
    Thread E R α → Deeds E R → Prop
  | .done a, tr => Q a tr
  | .act e next, tr => May tr e ∧ ∀ a, Obeys May Q (next a) (⟨e, a⟩ :: tr)

section Obeys

variable {May : Deeds E R → E → Prop} {Q : α → Deeds E R → Prop} {A : E → Prop}
  {m : Thread E R α} {tr : Deeds E R}

theorem Obeys.bind {f : α → Thread E R β} {Q' : β → Deeds E R → Prop} (h : Obeys May Q m tr)
    (hf : ∀ a tr, Q a tr → Obeys May Q' (f a) tr) : Obeys May Q' (m >>= f) tr := by
  induction m generalizing tr with
  | done a => exact hf a tr h
  | act e next ih => exact ⟨h.1, fun a => ih a (h.2 a)⟩

theorem obeys_act {e : E} {f : R e → Thread E R α} (h : May tr e)
    (hf : ∀ a, Obeys May Q (f a) (⟨e, a⟩ :: tr)) : Obeys May Q (Thread.perform e >>= f) tr :=
  ⟨h, hf⟩

/-- Actions that are always allowed, and after which `J` still holds. -/
theorem obeys_only {J : Deeds E R → Prop} (hMay : ∀ tr e, A e → May tr e)
    (hJ : ∀ tr e a, A e → J tr → J (⟨e, a⟩ :: tr)) (h : m.Only A) (htr : J tr) :
    Obeys May (fun _ => J) m tr := by
  have hgo : ∀ {B : Option E → Prop}, (∀ e, B (some e) → A e) →
      m.Guarded (fun _ _ o => ∀ e, o = some e → A e) B → Obeys May (fun _ => J) m tr := by
    induction m generalizing tr with
    | done a => exact fun _ _ => htr
    | act e next ih =>
        intro B hB h
        have he := hB e h.1
        exact ⟨hMay tr e he, fun a => ih a (h.2 a) (hJ tr e a he htr) (fun e h => h e rfl) (h.2 a)⟩
  exact hgo (fun e h => h e rfl) h

end Obeys

section Runs

variable {effect : Nat → (e : E) → I → σ → Option (R e × σ)} {program : C → Thread E R α}
  {Allowed : C → Prop} {May : C → Deeds E R → E → Prop} {Q : C → α → Deeds E R → Prop} {init : σ}
  {past : List (Pool σ E R α × Label C E R α)} {p q : Pool σ E R α} {t : Nat}

theorem calling_other {l : Label C E R α} (h : l.thread ≠ t) :
    calling t ((p, l) :: past) = calling t past := by
  cases l with
  | start => exact if_neg h
  | act | exit => rfl

/-- A thread that runs follows the rules of its call. -/
theorem Run.obeys (hprogram : ∀ c, Allowed c → Obeys (May c) (Q c) (program c) [])
    (hrun : Run effect program init past p) (hcalls : Calls Allowed past) {m : Thread E R α}
    (hm : p.threads t = some m) :
    ∃ c, calling t past = some c ∧ Obeys (May c) (Q c) m (deeds t past) := by
  induction hrun generalizing m with
  | init => cases hm
  | @step past p q l hrun hstep ih =>
      by_cases ht : l.thread = t
      · cases hstep with
        | @start _ t c hfree =>
            obtain rfl : t = _ := ht
            dsimp only at hm
            rw [update_self] at hm
            cases hm
            rw [calling, deeds, if_pos rfl, if_pos rfl]
            exact ⟨c, rfl, hprogram c (hcalls p t c List.mem_cons_self)⟩
        | @act _ t e next i a s hact heffect =>
            obtain rfl : t = _ := ht
            dsimp only at hm
            rw [update_self] at hm
            cases hm
            obtain ⟨c, hc, hobeys⟩ := ih hcalls.tail hact
            rw [calling, deeds, if_pos rfl]
            exact ⟨c, hc, hobeys.2 a⟩
        | @exit _ t a hdone =>
            obtain rfl : t = _ := ht
            dsimp only at hm
            rw [update_self] at hm
            cases hm
      · rw [hstep.other ht] at hm
        rw [calling_other ht, deeds_other ht]
        exact ih hcalls.tail hm

/-- An action of a run is one that its call may do then. -/
theorem Run.may (hprogram : ∀ c, Allowed c → Obeys (May c) (Q c) (program c) [])
    (hrun : Run effect program init past p) (hcalls : Calls Allowed past) {e : E} {a : R e}
    (hstep : Step effect program (.act t e a) p q) :
    ∃ c, calling t past = some c ∧ May c (deeds t past) e := by
  cases hstep with
  | act hact _ =>
      obtain ⟨c, hc, hobeys⟩ := hrun.obeys hprogram hcalls hact
      exact ⟨c, hc, hobeys.1⟩

end Runs

end Pool
