import StarCache.Foundation.Interleaving

/-!
# Rely and guarantee

A logic for what a thread can count on while the others act. An assertion speaks of the shared
state and of what the thread itself has done; it is stable when no action that another thread is
allowed can make it false.
`Outline` goes through the text of a thread: an action finds what it needs, keeps the invariant
and what the thread guarantees to the others, and leaves a stable assertion behind.
`Outlined.run` puts the outlines of all threads together.
-/

namespace Pool

open Function

variable {σ E C I α : Type} {R : E → Type}

/-! ## The deeds of a thread -/

section Deeds

/-- The actions of a thread with their answers, latest first. -/
abbrev Deeds (E : Type) (R : E → Type) := List ((e : E) × R e)

variable {effect : Nat → (e : E) → I → σ → Option (R e × σ)} {program : C → Thread E R α}

/-- What thread `t` has done since its call. -/
def deeds (t : Nat) : List (Pool σ E R α × Label C E R α) → Deeds E R
  | [] => []
  | (_, .start t' _) :: past => if t' = t then [] else deeds t past
  | (_, .act t' e a) :: past => if t' = t then ⟨e, a⟩ :: deeds t past else deeds t past
  | (_, .exit _ _) :: past => deeds t past

/-- The steps since the latest call of thread `t`. -/
def since (t : Nat) : List (Pool σ E R α × Label C E R α) → List (Pool σ E R α × Label C E R α)
  | [] => []
  | (p, .start t' c) :: past => if t' = t then [] else (p, .start t' c) :: since t past
  | x :: past => x :: since t past

theorem deeds_other {t : Nat} {p : Pool σ E R α} {l : Label C E R α}
    {past : List (Pool σ E R α × Label C E R α)} (h : l.thread ≠ t) :
    deeds t ((p, l) :: past) = deeds t past := by
  cases l with
  | start | act => exact if_neg h
  | exit => rfl

/-- What was before a call does not count. -/
theorem deeds_start {t : Nat} {after before : List (Pool σ E R α × Label C E R α)}
    {p : Pool σ E R α} {c : C} :
    deeds t (after ++ (p, .start t c) :: before) = deeds t after := by
  induction after with
  | nil => exact if_pos rfl
  | cons y after ih =>
      obtain ⟨q, l⟩ := y
      cases l with
      | start | act =>
          rw [List.cons_append, deeds, deeds, ih]
      | exit => exact ih

theorem since_split {t : Nat} {past : List (Pool σ E R α × Label C E R α)}
    {x : Pool σ E R α × Label C E R α} (h : x ∈ since t past) : ∃ after before,
      past = after ++ x :: before ∧ ∀ y ∈ after, ∀ c, y.2 ≠ .start t c := by
  have hcons : ∀ (p : Pool σ E R α) (l : Label C E R α) (past : List _),
      (∀ c, l ≠ .start t c) → (x ∈ since t past → ∃ after before,
        past = after ++ x :: before ∧ ∀ y ∈ after, ∀ c, y.2 ≠ .start t c) →
      x ∈ (p, l) :: since t past → ∃ after before,
        (p, l) :: past = after ++ x :: before ∧ ∀ y ∈ after, ∀ c, y.2 ≠ .start t c := by
    intro p l past hl ih hx
    rcases List.mem_cons.mp hx with rfl | hx
    · exact ⟨[], past, rfl, fun _ h => nomatch h⟩
    · obtain ⟨after, before, rfl, hafter⟩ := ih hx
      refine ⟨(p, l) :: after, before, rfl, fun y hy => ?_⟩
      rcases List.mem_cons.mp hy with rfl | hy
      · exact hl
      · exact hafter y hy
  induction past with
  | nil => cases h
  | cons y past ih =>
      obtain ⟨p, l⟩ := y
      cases l with
      | start t' c =>
          unfold since at h
          split at h
          next => cases h
          next hne => exact hcons p _ past (fun c' heq => hne (Label.start.inj heq).1) ih h
      | act | exit => exact hcons p _ past (fun _ heq => nomatch heq) ih h

/-- A deed is a step taken since the call. -/
theorem mem_deeds {t : Nat} {past : List (Pool σ E R α × Label C E R α)} {e : E} {a : R e}
    (h : ⟨e, a⟩ ∈ deeds t past) : ∃ p, (p, Label.act t e a) ∈ since t past := by
  induction past with
  | nil => cases h
  | cons y past ih =>
      obtain ⟨p, l⟩ := y
      cases l with
      | start t' c =>
          unfold deeds at h
          unfold since
          split at h
          next => cases h
          next hne =>
            obtain ⟨q, hq⟩ := ih h
            rw [if_neg hne]
            exact ⟨q, List.mem_cons_of_mem _ hq⟩
      | act t' e' a' =>
          unfold deeds at h
          split at h
          next heq =>
            subst heq
            cases List.mem_cons.mp h with
            | inl h =>
                cases h
                exact ⟨p, List.mem_cons_self⟩
            | inr h =>
                obtain ⟨q, hq⟩ := ih h
                exact ⟨q, List.mem_cons_of_mem _ hq⟩
          next =>
            obtain ⟨q, hq⟩ := ih h
            exact ⟨q, List.mem_cons_of_mem _ hq⟩
      | exit t' a' =>
          obtain ⟨q, hq⟩ := ih h
          exact ⟨q, List.mem_cons_of_mem _ hq⟩

/-- A step of a thread that has not been called since is one of its deeds. -/
theorem step_deeds {t : Nat} {after before : List (Pool σ E R α × Label C E R α)}
    {p : Pool σ E R α} {e : E} {a : R e} (h : ∀ x ∈ after, ∀ c, x.2 ≠ .start t c) :
    ⟨e, a⟩ ∈ deeds t (after ++ (p, .act t e a) :: before) := by
  induction after with
  | nil =>
      rw [List.nil_append, deeds, if_pos rfl]
      exact List.mem_cons_self
  | cons y after ih =>
      have ih := ih fun x hx => h x (List.mem_cons_of_mem _ hx)
      obtain ⟨q, l⟩ := y
      cases l with
      | start t' c =>
          have hne : t' ≠ t := by
            rintro rfl
            exact h _ List.mem_cons_self c rfl
          rwa [List.cons_append, deeds, if_neg hne]
      | act t' e' a' =>
          rw [List.cons_append, deeds]
          split
          · exact List.mem_cons_of_mem _ ih
          · exact ih
      | exit => exact ih

/-- A deed with the deeds before it, as a step of the run. -/
theorem deeds_split {t : Nat} {past : List (Pool σ E R α × Label C E R α)} {e : E} {a : R e}
    {tr : Deeds E R} (h : ⟨e, a⟩ :: tr <:+ deeds t past) : ∃ after p before,
      past = after ++ (p, .act t e a) :: before ∧ deeds t before = tr ∧
      ∀ x ∈ after, ∀ c, x.2 ≠ .start t c := by
  induction past with
  | nil => cases List.suffix_nil.mp h
  | cons y past ih =>
      obtain ⟨p, l⟩ := y
      have hlater : (∀ c, l ≠ .start t c) → ⟨e, a⟩ :: tr <:+ deeds t past → ∃ after q before,
          (p, l) :: past = after ++ (q, .act t e a) :: before ∧ deeds t before = tr ∧
          ∀ x ∈ after, ∀ c, x.2 ≠ .start t c := by
        intro hl htr
        obtain ⟨after, q, before, rfl, hbefore, hafter⟩ := ih htr
        refine ⟨(p, l) :: after, q, before, rfl, hbefore, fun x hx => ?_⟩
        rcases List.mem_cons.mp hx with rfl | hx
        · exact hl
        · exact hafter x hx
      cases l with
      | start t' c =>
          unfold deeds at h
          split at h
          next => cases List.suffix_nil.mp h
          next hne =>
            refine hlater (fun c' hc' => hne ?_) h
            cases hc'
            rfl
      | act t' e' a' =>
          unfold deeds at h
          split at h
          next heq =>
            subst heq
            rcases List.suffix_cons_iff.mp h with heq | h
            · cases heq
              exact ⟨[], p, past, rfl, rfl, fun _ h => nomatch h⟩
            · exact hlater nofun h
          next => exact hlater nofun h
      | exit => exact hlater nofun h

end Deeds

end Pool

/-- Threads on a shared state, with what is expected of it. -/
structure Discipline (σ E I : Type) (R : E → Type) where
  /-- What an action of a thread does; the input is what it depends on besides. -/
  effect : Nat → (e : E) → I → σ → Option (R e × σ)
  inv : σ → Prop
  /-- What a thread may do. -/
  guar : Nat → σ → σ → Prop
  /-- What is true of a thread that does not run. -/
  idle : Nat → σ → Prop
  /-- The actions of a thread that may have to wait. -/
  waits : Nat → E → σ → Prop

namespace Discipline

open Function Pool

variable {σ E C I α β γ : Type} {R : E → Type}

abbrev Assertion (σ E : Type) (R : E → Type) := Deeds E R → σ → Prop

/-! ## Outlines -/

variable (D : Discipline σ E I R)

/-- No other thread can make the assertion false. -/
def Stable (t : Nat) (P : Assertion σ E R) : Prop :=
  ∀ t', t' ≠ t → ∀ tr s s', D.inv s → D.inv s' → D.guar t' s s' → P tr s → P tr s'

/-- No thread can make the assertion false. -/
def Persistent (P : Assertion σ E R) : Prop :=
  ∀ t tr tr' s s', D.inv s → D.inv s' → D.guar t s s' → tr <:+ tr' → P tr s → P tr' s'

/-- From `P` the text can be followed up to a result for which `Q` holds. -/
def Outline (t : Nat) (Q : α → Assertion σ E R) : Thread E R α → Assertion σ E R → Prop
  | .done a, P => ∀ tr s, D.inv s → P tr s → Q a tr s
  | .act e next, P => ∀ tr s, D.inv s → P tr s →
      (D.waits t e s ∨ ∀ i, (D.effect t e i s).isSome = true) ∧
      ∀ i a s', D.effect t e i s = some (a, s') → D.inv s' ∧ D.guar t s s' ∧
        ∃ P', D.Stable t P' ∧ P' (⟨e, a⟩ :: tr) s' ∧ Outline t Q (next a) P'

section Rules

variable {D} {t : Nat} {P P' F : Assertion σ E R} {Q Q' : α → Assertion σ E R}
  {m : Thread E R α}

theorem Persistent.stable (h : D.Persistent P) : D.Stable t P :=
  fun t' _ tr s s' hs hs' hguar hP => h t' tr tr s s' hs hs' hguar (List.suffix_refl tr) hP

theorem Stable.and (hP : D.Stable t P) (hF : D.Stable t F) :
    D.Stable t fun tr s => P tr s ∧ F tr s :=
  fun t' ht tr s s' hs hs' hguar h =>
    ⟨hP t' ht tr s s' hs hs' hguar h.1, hF t' ht tr s s' hs hs' hguar h.2⟩

theorem Persistent.and (hP : D.Persistent P) (hF : D.Persistent F) :
    D.Persistent fun tr s => P tr s ∧ F tr s :=
  fun t tr tr' s s' hs hs' hguar hle h =>
    ⟨hP t tr tr' s s' hs hs' hguar hle h.1, hF t tr tr' s s' hs hs' hguar hle h.2⟩

theorem persistent_all {ι : Sort*} {P : ι → Assertion σ E R} (h : ∀ i, D.Persistent (P i)) :
    D.Persistent fun tr s => ∀ i, P i tr s :=
  fun t tr tr' s s' hs hs' hguar hle hP i => h i t tr tr' s s' hs hs' hguar hle (hP i)

theorem persistent_exists {ι : Sort*} {P : ι → Assertion σ E R} (h : ∀ i, D.Persistent (P i)) :
    D.Persistent fun tr s => ∃ i, P i tr s :=
  fun t tr tr' s s' hs hs' hguar hle ⟨i, hP⟩ => ⟨i, h i t tr tr' s s' hs hs' hguar hle hP⟩

theorem persistent_const (p : Prop) : D.Persistent fun _ _ => p :=
  fun _ _ _ _ _ _ _ _ _ h => h

/-- A deed is never undone. -/
theorem persistent_deed {e : E} {a : R e} : D.Persistent fun tr _ => ⟨e, a⟩ ∈ tr :=
  fun _ _ _ _ _ _ _ _ hle h => hle.subset h

/-- The deed `d` was done after deeds of which `K` holds. -/
def Upon (d : (e : E) × R e) (K : Deeds E R → Prop) : Assertion σ E R := fun tr _ =>
  ∃ before, d :: before <:+ tr ∧ K before

theorem persistent_upon {d : (e : E) × R e} {K : Deeds E R → Prop} : D.Persistent (Upon d K) :=
  fun _ _ _ _ _ _ _ _ hle ⟨before, h, hK⟩ => ⟨before, h.trans hle, hK⟩

theorem Upon.mem {d : (e : E) × R e} {K : Deeds E R → Prop} {tr : Deeds E R} {s : σ}
    (h : Upon d K tr s) : d ∈ tr := by
  obtain ⟨before, h, _⟩ := h
  exact h.subset List.mem_cons_self

/-- The deeds that came before were done. -/
theorem Upon.known {d d' : (e : E) × R e} {tr : Deeds E R} {s : σ}
    (h : Upon d (fun tr => d' ∈ tr) tr s) : d' ∈ tr := by
  obtain ⟨before, h, hd'⟩ := h
  exact h.subset (List.mem_cons_of_mem _ hd')

theorem Outline.pre (h : D.Outline t Q m P) (hP : ∀ tr s, D.inv s → P' tr s → P tr s) :
    D.Outline t Q m P' := by
  cases m with
  | done a => exact fun tr s hs hP' => h tr s hs (hP tr s hs hP')
  | act e next => exact fun tr s hs hP' => h tr s hs (hP tr s hs hP')

theorem Outline.post (h : D.Outline t Q m P) (hQ : ∀ a tr s, D.inv s → Q a tr s → Q' a tr s) :
    D.Outline t Q' m P := by
  induction m generalizing P with
  | done a => exact fun tr s hs hP => hQ a tr s hs (h tr s hs hP)
  | act e next ih =>
      intro tr s hs hP
      obtain ⟨hready, hact⟩ := h tr s hs hP
      refine ⟨hready, fun i a s' heffect => ?_⟩
      obtain ⟨hs', hguar, P', hstable, hP', hrest⟩ := hact i a s' heffect
      exact ⟨hs', hguar, P', hstable, hP', ih a hrest⟩

theorem Outline.bind {f : α → Thread E R β} {Q' : β → Assertion σ E R} (h : D.Outline t Q m P)
    (hf : ∀ a, D.Outline t Q' (f a) (Q a)) : D.Outline t Q' (m >>= f) P := by
  induction m generalizing P with
  | done a => exact (hf a).pre h
  | act e next ih =>
      intro tr s hs hP
      obtain ⟨hready, hact⟩ := h tr s hs hP
      refine ⟨hready, fun i a s' heffect => ?_⟩
      obtain ⟨hs', hguar, P', hstable, hP', hrest⟩ := hact i a s' heffect
      exact ⟨hs', hguar, P', hstable, hP', ih a hrest⟩

theorem outline_pure {a : α} (h : ∀ tr s, D.inv s → P tr s → Q a tr s) :
    D.Outline t Q (pure a : Thread E R α) P := h

/-- What is true before and does not change is at hand for the whole text. -/
theorem Outline.given {p : Prop} (h : p → D.Outline t Q m P) (hp : ∀ tr s, D.inv s → P tr s → p) :
    D.Outline t Q m P := by
  cases m with
  | done a => exact fun tr s hs hP => h (hp tr s hs hP) tr s hs hP
  | act e next => exact fun tr s hs hP => h (hp tr s hs hP) tr s hs hP

theorem outline_exists {ι : Sort*} {P : ι → Assertion σ E R} (h : ∀ i, D.Outline t Q m (P i)) :
    D.Outline t Q m fun tr s => ∃ i, P i tr s := by
  cases m with
  | done a => exact fun tr s hs ⟨i, hP⟩ => h i tr s hs hP
  | act e next => exact fun tr s hs ⟨i, hP⟩ => h i tr s hs hP

theorem outline_perform {e : E} {Q : R e → Assertion σ E R} (hQ : ∀ a, D.Stable t (Q a))
    (h : ∀ tr s, D.inv s → P tr s → (D.waits t e s ∨ ∀ i, (D.effect t e i s).isSome = true) ∧
      ∀ i a s', D.effect t e i s = some (a, s') →
        D.inv s' ∧ D.guar t s s' ∧ Q a (⟨e, a⟩ :: tr) s') :
    D.Outline t Q (Thread.perform e : Thread E R (R e)) P := by
  intro tr s hs hP
  obtain ⟨hready, hact⟩ := h tr s hs hP
  refine ⟨hready, fun i a s' heffect => ?_⟩
  obtain ⟨hs', hguar, hpost⟩ := hact i a s' heffect
  exact ⟨hs', hguar, Q a, hQ a, hpost, fun _ _ _ h => h⟩

theorem outline_when {c : Bool} {m : Thread E R Unit} {Q : Unit → Assertion σ E R}
    (hrun : c = true → D.Outline t Q m P)
    (hskip : c = false → ∀ tr s, D.inv s → P tr s → Q () tr s) :
    D.Outline t Q (Thread.when c m) P := by
  cases c with
  | true => exact hrun rfl
  | false => exact outline_pure (hskip rfl)

theorem outline_forEach {body : γ → Thread E R Unit} : ∀ {xs : List γ},
    (∀ x ∈ xs, D.Outline t (fun _ => P) (body x) P) →
      D.Outline t (fun _ => P) (Thread.forEach xs body) P
  | [], _ => outline_pure fun _ _ _ h => h
  | x :: _, h => (h x List.mem_cons_self).bind fun _ =>
      outline_forEach fun y hy => h y (List.mem_cons_of_mem x hy)

theorem outline_forUntil {stop : α → Bool} {done : α} {body : γ → Thread E R α} :
    ∀ {xs : List γ}, (∀ tr s, D.inv s → P tr s → Q done tr s) →
      (∀ x ∈ xs, D.Outline t (fun a tr s => (stop a = true → Q a tr s) ∧
        (stop a = false → P tr s)) (body x) P) →
      D.Outline t Q (Thread.forUntil stop done xs body) P
  | [], hdone, _ => outline_pure hdone
  | x :: _, hdone, h => by
      refine (h x List.mem_cons_self).bind fun a => ?_
      split
      next hstop => exact outline_pure fun _ _ _ hP => hP.1 hstop
      next hgo =>
        refine (outline_forUntil hdone fun y hy => h y (List.mem_cons_of_mem x hy)).pre ?_
        exact fun _ _ _ hP => hP.2 (Bool.not_eq_true _ ▸ hgo)

theorem outline_retry {attempt : Thread E R (Option α)} {remedy : Thread E R Unit}
    {Q : Option α → Assertion σ E R} (hnone : ∀ tr s, D.inv s → P tr s → Q none tr s)
    (hattempt : D.Outline t (fun a tr s => (a ≠ none → Q a tr s) ∧ (a = none → P tr s)) attempt P)
    (hremedy : D.Outline t (fun _ => P) remedy P) :
    ∀ n, D.Outline t Q (Thread.retry attempt remedy n) P
  | 0 => outline_pure hnone
  | n + 1 => by
      refine hattempt.bind fun a => ?_
      cases a with
      | some a => exact outline_pure fun _ _ _ h => h.1 (Option.some_ne_none a)
      | none =>
          refine Outline.bind (hremedy.pre fun _ _ _ h => h.2 rfl) fun _ => ?_
          exact outline_retry hnone hattempt hremedy n

end Rules

/-! ## Soundness -/

section Soundness

variable {D} {program : C → Thread E R α} {Allowed : C → Prop}
  {Q : Nat → α → Assertion σ E R} {init : σ} {past : List (Pool σ E R α × Label C E R α)}
  {p q : Pool σ E R α}

variable (D) in
/-- What is true of a thread of the pool. -/
def Follows (Q : Nat → α → Assertion σ E R) (t : Nat) (tr : Deeds E R) (s : σ) :
    Option (Thread E R α) → Prop
  | none => D.idle t s
  | some m => ∃ P, D.Stable t P ∧ P tr s ∧ D.Outline t (Q t) m P

variable (D) in
/-- Every allowed call has an outline, from a thread that does not run to one. -/
structure Outlined (program : C → Thread E R α) (Allowed : C → Prop)
    (Q : Nat → α → Assertion σ E R) (init : σ) : Prop where
  inv : D.inv init
  idle : ∀ t, D.idle t init
  stable : ∀ t, D.Stable t fun _ s => D.idle t s
  refl : ∀ t s, D.inv s → D.guar t s s
  program : ∀ t c, Allowed c → D.Outline t (Q t) (program c) fun tr s => D.idle t s ∧ tr = []
  exit : ∀ t a tr s, Q t a tr s → D.idle t s

theorem Outlined.run (h : D.Outlined program Allowed Q init)
    (hrun : Run D.effect program init past p) (hcalls : Calls Allowed past) :
    D.inv p.shared ∧ ∀ t, D.Follows Q t (deeds t past) p.shared (p.threads t) := by
  induction hrun with
  | init => exact ⟨h.inv, h.idle⟩
  | @step past p q l hrun hstep ih =>
      obtain ⟨hinv, hall⟩ := ih hcalls.tail
      -- a step that leaves the shared state as it is leaves the other threads as they are
      have hsame : q.shared = p.shared → ∀ t, l.thread ≠ t →
          D.Follows Q t (deeds t ((p, l) :: past)) q.shared (q.threads t) := by
        intro hshared t ht
        rw [hshared, hstep.other ht, deeds_other ht]
        exact hall t
      cases hstep with
      | @start _ t c hfree =>
          refine ⟨hinv, fun t' => ?_⟩
          by_cases ht : t = t'
          · subst ht
            have hidle := hall t
            rw [hfree] at hidle
            dsimp only
            rw [update_self, deeds, if_pos rfl]
            refine ⟨_, (h.stable t).and fun _ _ _ _ _ _ _ _ hnil => hnil, ⟨hidle, rfl⟩,
              h.program t c (hcalls p t c List.mem_cons_self)⟩
          · exact hsame rfl t' ht
      | @act _ t e next i a s hact heffect =>
          have hown := hall t
          rw [hact] at hown
          obtain ⟨P, _, hP, houtline⟩ := hown
          obtain ⟨hs, hguar, P', hstable, hP', hrest⟩ :=
            (houtline _ _ hinv hP).2 i a s heffect
          refine ⟨hs, fun t' => ?_⟩
          by_cases ht : t = t'
          · subst ht
            dsimp only
            rw [update_self, deeds, if_pos rfl]
            exact ⟨P', hstable, hP', hrest⟩
          · have hother := hall t'
            dsimp only
            rw [update_of_ne (Ne.symm ht), deeds_other (l := .act t e a) ht]
            cases hm : p.threads t' with
            | none =>
                rw [hm] at hother
                exact h.stable t' t ht [] _ _ hinv hs hguar hother
            | some m =>
                rw [hm] at hother
                obtain ⟨P₁, hstable₁, hP₁, houtline₁⟩ := hother
                exact ⟨P₁, hstable₁, hstable₁ t ht _ _ _ hinv hs hguar hP₁, houtline₁⟩
      | @exit _ t a hdone =>
          refine ⟨hinv, fun t' => ?_⟩
          by_cases ht : t = t'
          · subst ht
            have hown := hall t
            rw [hdone] at hown
            obtain ⟨P, _, hP, houtline⟩ := hown
            dsimp only
            rw [update_self]
            exact h.exit t a _ _ (houtline _ _ hinv hP)
          · exact hsame rfl t' ht

/-- A step keeps to what its thread guarantees. -/
theorem Outlined.guar (h : D.Outlined program Allowed Q init)
    (hrun : Run D.effect program init past p) {l : Label C E R α}
    (hstep : Step D.effect program l p q) (hcalls : Calls Allowed ((p, l) :: past)) :
    D.inv p.shared ∧ D.inv q.shared ∧ D.guar l.thread p.shared q.shared := by
  obtain ⟨hinv, hall⟩ := h.run hrun hcalls.tail
  cases hstep with
  | start => exact ⟨hinv, hinv, h.refl _ _ hinv⟩
  | @act _ t e next i a s hact heffect =>
      have hown := hall t
      rw [hact] at hown
      obtain ⟨P, _, hP, houtline⟩ := hown
      obtain ⟨hs, hguar, _⟩ := (houtline _ _ hinv hP).2 i a s heffect
      exact ⟨hinv, hs, hguar⟩
  | exit => exact ⟨hinv, hinv, h.refl _ _ hinv⟩

/-- A step keeps what no thread makes false. -/
theorem Outlined.keeps (h : D.Outlined program Allowed Q init) {P : σ → Prop}
    (hP : D.Persistent fun _ s => P s) {past : List (Pool σ E R α × Label C E R α)}
    {p q : Pool σ E R α} {l : Label C E R α} (hrun : Run D.effect program init past p)
    (hcalls : Calls Allowed ((p, l) :: past)) (hstep : Step D.effect program l p q)
    (hp : P p.shared) : P q.shared := by
  obtain ⟨hs, hs', hguar⟩ := h.guar hrun hstep hcalls
  exact hP _ [] [] _ _ hs hs' hguar (List.suffix_refl _) hp

/-- What no thread makes false stays true to the end of the run. -/
theorem Outlined.lasting (h : D.Outlined program Allowed Q init) {P : σ → Prop}
    (hP : D.Persistent fun _ s => P s) {after before : List (Pool σ E R α × Label C E R α)}
    {x : Pool σ E R α × Label C E R α}
    (hrun : Run D.effect program init (after ++ x :: before) q)
    (hcalls : Calls Allowed (after ++ x :: before)) (hx : P x.1.shared) : P q.shared :=
  hrun.kept (P := fun p => P p.shared) (h.keeps hP) hcalls hx

/-- What is so after a step, and no thread makes false, stays so to the end of the run. -/
theorem Outlined.follows (h : D.Outlined program Allowed Q init) {P : σ → Prop}
    (hP : D.Persistent fun _ s => P s) {after before : List (Pool σ E R α × Label C E R α)}
    {x : Pool σ E R α × Label C E R α}
    (hrun : Run D.effect program init (after ++ x :: before) q)
    (hcalls : Calls Allowed (after ++ x :: before)) (hx : P (follower after q).shared) :
    P q.shared :=
  hrun.kept_follower (P := fun p => P p.shared) (h.keeps hP) hcalls hx

/-- The result of a call. -/
theorem Outlined.result (h : D.Outlined program Allowed Q init)
    (hrun : Run D.effect program init past p) (hcalls : Calls Allowed past) {t : Nat} {a : α}
    (hexit : Step D.effect program (.exit t a) p q) : Q t a (deeds t past) p.shared := by
  obtain ⟨hinv, hall⟩ := h.run hrun hcalls
  cases hexit with
  | exit hdone =>
      have hown := hall t
      rw [hdone] at hown
      obtain ⟨P, _, hP, houtline⟩ := hown
      exact houtline _ _ hinv hP

/-- The next action of a thread can be taken, unless it has to wait. -/
theorem Outlined.ready (h : D.Outlined program Allowed Q init)
    (hrun : Run D.effect program init past p) (hcalls : Calls Allowed past) {t : Nat} {e : E}
    {next : R e → Thread E R α} (hact : p.threads t = some (.act e next)) :
    D.waits t e p.shared ∨ ∀ i, (D.effect t e i p.shared).isSome = true := by
  obtain ⟨hinv, hall⟩ := h.run hrun hcalls
  have hown := hall t
  rw [hact] at hown
  obtain ⟨P, _, hP, houtline⟩ := hown
  exact (houtline _ _ hinv hP).1

end Soundness

end Discipline
