import StarCache.Foundation.RelyGuarantee
import Mathlib.Data.Finsupp.Basic

/-!
# Bounds on the actions of a thread

How many actions a text takes at most, along answers of which something is known, and with it how
many steps a run has at most.
-/

namespace Thread

variable {E : Type} {R : E → Type} {α β γ : Type}

/-- Along allowed answers the thread takes at most so many actions, and its result is in `Q`. -/
def Within (Allowed : (e : E) → R e → Prop) (Q : α → Prop) : Thread E R α → Nat → Prop
  | .done a, _ => Q a
  | .act _ _, 0 => False
  | .act e next, n + 1 => ∀ r, Allowed e r → Within Allowed Q (next r) n

section Rules

variable {Allowed : (e : E) → R e → Prop} {Q : α → Prop} {Q' : β → Prop} {m : Thread E R α}
  {f : α → Thread E R β} {n k N : Nat}

theorem within_pure {a : α} (h : Q a) : Within Allowed Q (pure a) 0 := h

/-- Also where more would be allowed. -/
theorem within_done {a : α} (h : Q a) : Within Allowed Q (pure a) n := h

theorem Within.le (h : Within Allowed Q m n) (hle : n ≤ N) : Within Allowed Q m N := by
  induction m generalizing n N with
  | done a => exact h
  | act e next ih =>
      cases n with
      | zero => exact h.elim
      | succ n =>
          obtain ⟨N, rfl⟩ := Nat.exists_eq_add_of_le' (Nat.lt_of_lt_of_le n.succ_pos hle)
          exact fun r hr => ih r (h r hr) (Nat.le_of_succ_le_succ hle)

theorem Within.post {Q₁ : α → Prop} (h : Within Allowed Q m n) (hQ : ∀ a, Q a → Q₁ a) :
    Within Allowed Q₁ m n := by
  induction m generalizing n with
  | done a => exact hQ a h
  | act e next ih =>
      cases n with
      | zero => exact h
      | succ n => exact fun r hr => ih r (h r hr)

theorem Within.bind (hm : Within Allowed Q m n) (hf : ∀ a, Q a → Within Allowed Q' (f a) k) :
    Within Allowed Q' (m >>= f) (n + k) := by
  induction m generalizing n with
  | done a => exact (hf a hm).le (Nat.le_add_left ..)
  | act e next ih =>
      cases n with
      | zero => exact hm.elim
      | succ n =>
          rw [Nat.add_right_comm]
          exact fun r hr => ih r (hm r hr)

theorem within_perform {e : E} {Q : R e → Prop} (h : ∀ r, Allowed e r → Q r) :
    Within Allowed Q (perform e) 1 := h

/-- An action and what follows it. -/
theorem within_act {e : E} {f : R e → Thread E R β} (h : ∀ r, Allowed e r → Within Allowed Q' (f r) n) :
    Within Allowed Q' (perform e >>= f) (n + 1) := h

theorem within_when {c : Bool} {m : Thread E R Unit} (h : Within Allowed (fun _ => True) m n) :
    Within Allowed (fun _ => True) (when c m) n := by
  cases c with
  | true => exact h
  | false => exact within_done trivial

theorem within_forEach {xs : List γ} {body : γ → Thread E R Unit} (hlen : xs.length ≤ n)
    (h : ∀ x ∈ xs, Within Allowed (fun _ => True) (body x) k) :
    Within Allowed (fun _ => True) (forEach xs body) (n * k) := by
  refine Within.le (n := xs.length * k) ?_ (Nat.mul_le_mul_right k hlen)
  clear hlen
  induction xs with
  | nil => exact within_done trivial
  | cons x rest ih =>
      rw [List.length_cons, Nat.succ_mul, Nat.add_comm]
      exact (h x List.mem_cons_self).bind fun _ _ => ih fun y hy => h y (List.mem_cons_of_mem _ hy)

/-- A loop over distinct elements, which goes on only past those in a set. -/
theorem within_forEach_distinct [DecidableEq γ] {xs : List γ} {body : γ → Thread E R Unit}
    {S : Finset γ} (hxs : xs.Nodup) (h : ∀ x ∈ xs, Within Allowed (fun _ => x ∈ S) (body x) k) :
    Within Allowed (fun _ => True) (forEach xs body) ((S.card + 1) * k) := by
  induction xs generalizing S with
  | nil => exact within_done trivial
  | cons x rest ih =>
      obtain ⟨hx, hrest⟩ := List.nodup_cons.mp hxs
      rw [Nat.succ_mul, Nat.add_comm]
      refine (h x List.mem_cons_self).bind fun _ hS => ?_
      have ih := ih (S := S.erase x) hrest fun y hy =>
        (h y (List.mem_cons_of_mem _ hy)).post fun _ hy' =>
          Finset.mem_erase.mpr ⟨fun heq => hx (heq ▸ hy), hy'⟩
      rwa [Finset.card_erase_add_one hS] at ih

theorem within_forUntil {stop : β → Bool} {done : β} {xs : List γ} {body : γ → Thread E R β}
    (hlen : xs.length ≤ n) (h : ∀ x ∈ xs, Within Allowed (fun _ => True) (body x) k) :
    Within Allowed (fun _ => True) (forUntil stop done xs body) (n * k) := by
  refine Within.le (n := xs.length * k) ?_ (Nat.mul_le_mul_right k hlen)
  clear hlen
  induction xs with
  | nil => exact within_done trivial
  | cons x rest ih =>
      rw [List.length_cons, Nat.succ_mul, Nat.add_comm]
      refine (h x List.mem_cons_self).bind fun b _ => ?_
      split
      next => exact within_done trivial
      next => exact ih fun y hy => h y (List.mem_cons_of_mem _ hy)

theorem within_retry {attempt : Thread E R (Option α)} {remedy : Thread E R Unit}
    (hattempt : Within Allowed (fun _ => True) attempt k)
    (hremedy : Within Allowed (fun _ => True) remedy n) (tries : Nat) :
    Within Allowed (fun _ => True) (retry attempt remedy tries) (tries * (k + n)) := by
  induction tries with
  | zero => exact within_done trivial
  | succ tries ih =>
      have hsum : (tries + 1) * (k + n) = k + (n + tries * (k + n)) := by
        rw [Nat.succ_mul]
        omega
      rw [hsum]
      refine hattempt.bind fun o _ => ?_
      cases o with
      | some a => exact within_done trivial
      | none => exact hremedy.bind fun _ _ => ih

end Rules

end Thread

/-! ## Runs -/

namespace Pool

open Function Thread

variable {σ E C I α : Type} {R : E → Type}

/-- The answers of the run are allowed ones. -/
def Answers (Allowed : (e : E) → R e → Prop) (past : List (Pool σ E R α × Label C E R α)) : Prop :=
  ∀ p t e a, (p, Label.act t e a) ∈ past → Allowed e a

/-- Steps that come of commands are answered as the inputs of these let them be. -/
theorem Answers.of_yields {effect : Nat → (e : E) → I → σ → Option (R e × σ)}
    {Allowed : (e : E) → R e → Prop} {past : List (Pool σ E R α × Label C E R α)}
    {commands : List (Command C I)} (h : ∀ x ∈ past, ∃ c ∈ commands, c.Yields effect x.2)
    (hgo : ∀ t i, .go t i ∈ commands → ∀ e s a s', effect t e i s = some (a, s') → Allowed e a) :
    Answers Allowed past := by
  intro p t e a hx
  obtain ⟨_, hc, hact⟩ := h _ hx
  cases hact with
  | act heffect => exact hgo t _ hc e _ a _ heffect

/-- The number of calls that have started. -/
def starts : List (Pool σ E R α × Label C E R α) → Nat
  | [] => 0
  | (_, .start _ _) :: past => starts past + 1
  | _ :: past => starts past

theorem Answers.tail {Allowed : (e : E) → R e → Prop}
    {past : List (Pool σ E R α × Label C E R α)} {x : Pool σ E R α × Label C E R α}
    (h : Answers Allowed (x :: past)) : Answers Allowed past :=
  fun p t e a hx => h p t e a (List.mem_cons_of_mem _ hx)

variable {effect : Nat → (e : E) → I → σ → Option (R e × σ)} {program : C → Thread E R α}
  {init : σ} {past : List (Pool σ E R α × Label C E R α)} {p : Pool σ E R α}
  {Allowed : (e : E) → R e → Prop} {Proper : C → Prop} {N : Nat}

/-- What a thread has done and may still do. -/
def Spends (Allowed : (e : E) → R e → Prop) (N done : Nat) : Option (Thread E R α) → Prop
  | none => done ≤ N
  | some m => ∃ n, Within Allowed (fun _ => True) m n ∧ done + n ≤ N

/-- If each call takes at most `N` actions, no thread has taken more since its call. -/
theorem Run.spends (hprogram : ∀ c, Proper c → Within Allowed (fun _ => True) (program c) N)
    (hrun : Run effect program init past p) (hcalls : Calls Proper past)
    (hanswers : Answers Allowed past) (t : Nat) :
    Spends Allowed N (deeds t past).length (p.threads t) := by
  induction hrun with
  | init => exact Nat.zero_le N
  | @step past p q l hrun hstep ih =>
      have ih := ih hcalls.tail hanswers.tail
      by_cases ht : l.thread = t
      · cases hstep with
        | @start _ t c hfree =>
            obtain rfl : t = _ := ht
            dsimp only
            rw [update_self, deeds, if_pos rfl]
            exact ⟨N, hprogram c (hcalls p t c List.mem_cons_self), Nat.le_of_eq (Nat.zero_add N)⟩
        | @act _ t e next i a s hact heffect =>
            obtain rfl : t = _ := ht
            dsimp only
            rw [update_self, deeds, if_pos rfl]
            rw [hact] at ih
            obtain ⟨n, hn, hle⟩ := ih
            cases n with
            | zero => exact hn.elim
            | succ n =>
                refine ⟨n, hn a (hanswers p t e a List.mem_cons_self), ?_⟩
                rw [List.length_cons]
                omega
        | @exit _ t a hdone =>
            obtain rfl : t = _ := ht
            dsimp only
            rw [update_self]
            rw [hdone] at ih
            obtain ⟨n, _, hle⟩ := ih
            exact (Nat.le_add_right ..).trans hle
      · rw [hstep.other ht, deeds_other ht]
        exact ih

/-- What is left to the threads covers what they may still do and their ends. -/
structure Covers (Allowed : (e : E) → R e → Prop) (N : Nat)
    (past : List (Pool σ E R α × Label C E R α)) (p : Pool σ E R α) (left : Nat →₀ Nat) :
    Prop where
  thread : ∀ t m, p.threads t = some m → ∃ n, Within Allowed (fun _ => True) m n ∧ n + 1 ≤ left t
  total : past.length + left.sum (fun _ n => n) ≤ starts past * (N + 2)

/-- If each call takes at most `N` actions, a run has no more steps than its calls account for. -/
theorem Run.length_le (hprogram : ∀ c, Proper c → Within Allowed (fun _ => True) (program c) N)
    (hrun : Run effect program init past p) (hcalls : Calls Proper past)
    (hanswers : Answers Allowed past) : past.length ≤ starts past * (N + 2) := by
  suffices h : ∃ left, Covers Allowed N past p left by
    obtain ⟨left, _, htotal⟩ := h
    exact (Nat.le_add_right ..).trans htotal
  induction hrun with
  | init => exact ⟨0, nofun, by simp⟩
  | @step past p q l hrun hstep ih =>
      obtain ⟨left, hthread, htotal⟩ := ih hcalls.tail hanswers.tail
      -- the thread that takes the step gets another share
      have hshare : ∀ share, (∀ m, q.threads l.thread = some m →
          ∃ n, Within Allowed (fun _ => True) m n ∧ n + 1 ≤ share) →
          past.length + 1 + left.sum (fun _ n => n) + share ≤
            starts ((p, l) :: past) * (N + 2) + left l.thread →
          ∃ left, Covers Allowed N ((p, l) :: past) q left := by
        intro share hthread' htotal'
        refine ⟨left.update l.thread share, fun t m hm => ?_, ?_⟩
        · by_cases ht : t = l.thread
          · subst ht
            rw [Finsupp.update_apply, if_pos rfl]
            exact hthread' m hm
          · rw [hstep.other (Ne.symm ht)] at hm
            rw [Finsupp.update_apply, if_neg ht]
            exact hthread t m hm
        · have hsum := Finsupp.sum_update_add left l.thread share (fun _ n => n)
            (fun _ => rfl) fun _ _ _ => rfl
          rw [List.length_cons]
          omega
      cases hstep with
      | @start _ t c hfree =>
          refine hshare (N + 1) (fun m hm => ?_) ?_
          · dsimp only [Label.thread] at hm
            rw [update_self] at hm
            cases hm
            exact ⟨N, hprogram c (hcalls p t c List.mem_cons_self), Nat.le_refl _⟩
          · show _ ≤ (starts past + 1) * (N + 2) + _
            rw [Nat.succ_mul]
            omega
      | @act _ t e next i a s hact heffect =>
          obtain ⟨n, hn, hle⟩ := hthread t _ hact
          cases n with
          | zero => exact hn.elim
          | succ n =>
              refine hshare (n + 1) (fun m hm => ?_) ?_
              · dsimp only [Label.thread] at hm
                rw [update_self] at hm
                cases hm
                exact ⟨n, hn a (hanswers p t e a List.mem_cons_self), Nat.le_refl _⟩
              · show _ ≤ starts past * (N + 2) + left t
                omega
      | @exit _ t a hdone =>
          obtain ⟨n, _, hle⟩ := hthread t _ hdone
          refine hshare 0 (fun m hm => ?_) ?_
          · dsimp only [Label.thread] at hm
            rw [update_self] at hm
            cases hm
          · show _ ≤ starts past * (N + 2) + left t
            omega

end Pool
