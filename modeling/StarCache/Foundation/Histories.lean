import Mathlib.Data.Set.Finite.Basic
import Mathlib.Order.Interval.Set.Nat
import StarCache.Foundation.Interleaving

/-!
# Histories

The calls of a run of threads, each with the number of steps before it and with its answer.
`Linearizes` says that they can be told one after the other: the ones that have returned with their
answers, some of the others with an answer of their own, and none before one that had returned when
it started. It is enough that each call has a point between its start and its end, and that the
calls are told in the order of their points (`linearizes_points`).
-/

namespace Pool

variable {σ E I C α : Type} {R : E → Type}

/-- A call of a run, with the number of steps before it and its answer. -/
@[ext]
structure Occurrence (C α : Type) where
  thread : Nat
  start : Nat
  call : C
  answer : α

section Histories

/-- The latest call of thread `t`, and the number of steps before it. -/
def started (t : Nat) : List (Pool σ E R α × Label C E R α) → Option (C × Nat)
  | [] => none
  | (_, .start t' c) :: past => if t' = t then some (c, past.length) else started t past
  | (_, .act _ _ _) :: past | (_, .exit _ _) :: past => started t past

/-- The call starts in the run. -/
def Occurrence.Invoked (past : List (Pool σ E R α × Label C E R α)) (x : Occurrence C α) : Prop :=
  ∃ after p before, past = after ++ (p, .start x.thread x.call) :: before ∧
    before.length = x.start

/-- The call is given its answer after `n` steps of the run. -/
def Occurrence.Returned (past : List (Pool σ E R α × Label C E R α)) (x : Occurrence C α)
    (n : Nat) : Prop :=
  ∃ after p before, past = after ++ (p, .exit x.thread x.answer) :: before ∧ before.length = n ∧
    started x.thread before = some (x.call, x.start)

/-- The calls of a run one after the other, latest first. -/
structure Linearizes (past : List (Pool σ E R α × Label C E R α)) (order : List (Occurrence C α)) :
    Prop where
  once : (order.map Occurrence.start).Nodup
  invoked : ∀ x ∈ order, x.Invoked past
  returned : ∀ x n, x.Returned past n → x ∈ order
  /-- None is told before one that had returned when it started. -/
  realTime : order.Pairwise fun later earlier => ∀ n, later.Returned past n → earlier.start < n

variable {past after before after' before' : List (Pool σ E R α × Label C E R α)}
  {x y : Pool σ E R α × Label C E R α} {t n : Nat} {c : C} {a b : Occurrence C α}

/-- As many steps before, the same step. -/
theorem same_step (h : past = after ++ x :: before) (h' : past = after' ++ y :: before')
    (hlength : before.length = before'.length) : after = after' ∧ x = y ∧ before = before' := by
  obtain ⟨hafter, hcons⟩ :=
    List.append_inj' (h.symm.trans h') (by rw [List.length_cons, List.length_cons, hlength])
  exact ⟨hafter, List.cons.inj hcons⟩

/-- The step with fewer steps before it is the earlier one. -/
theorem earlier_step (h : past = after ++ x :: before) (h' : past = after' ++ y :: before')
    (hlength : before.length < before'.length) :
    ∃ mid, before' = mid ++ x :: before ∧ after = after' ++ y :: mid := by
  obtain ⟨mid, hmid⟩ : x :: before <:+ before' :=
    List.suffix_of_suffix_length_le ⟨after, h.symm⟩
      ⟨after' ++ [y], by rw [List.append_assoc, List.singleton_append, h']⟩ hlength
  refine ⟨mid, hmid.symm, ?_⟩
  rw [← hmid, ← List.cons_append, ← List.append_assoc] at h'
  exact (List.append_inj' (h.symm.trans h') rfl).1

theorem started_append (h : ∀ x ∈ after, ∀ c, x.2 ≠ .start t c) :
    started t (after ++ before) = started t before := by
  induction after with
  | nil => rfl
  | cons x after ih =>
      obtain ⟨p, l⟩ := x
      have ih := ih fun y hy => h y (List.mem_cons_of_mem _ hy)
      cases l with
      | start t' c =>
          have hne : t' ≠ t := by
            rintro rfl
            exact h _ List.mem_cons_self c rfl
          rw [List.cons_append, started, if_neg hne, ih]
      | act | exit => exact ih

/-- The step at which the latest call of a thread starts. -/
theorem started_split (h : started t past = some (c, n)) : ∃ after p before,
    past = after ++ (p, .start t c) :: before ∧ before.length = n ∧
      ∀ x ∈ after, ∀ c, x.2 ≠ .start t c := by
  induction past with
  | nil => cases h
  | cons x past ih =>
      obtain ⟨p, l⟩ := x
      have hlater : started t past = some (c, n) → (∀ c, l ≠ .start t c) → ∃ after q before,
          (p, l) :: past = after ++ (q, .start t c) :: before ∧ before.length = n ∧
            ∀ x ∈ after, ∀ c, x.2 ≠ .start t c := by
        intro h hl
        obtain ⟨after, q, before, rfl, hlength, hafter⟩ := ih h
        refine ⟨(p, l) :: after, q, before, rfl, hlength, fun x hx => ?_⟩
        rcases List.mem_cons.mp hx with rfl | hx
        · exact hl
        · exact hafter x hx
      cases l with
      | start t' c' =>
          unfold started at h
          split at h
          next ht =>
            cases ht
            cases h
            exact ⟨[], p, past, rfl, rfl, fun _ h => nomatch h⟩
          next hne =>
            refine hlater h fun c'' heq => hne ?_
            cases heq
            rfl
      | act | exit => exact hlater h nofun

theorem calling_eq : calling t past = (started t past).map Prod.fst := by
  induction past with
  | nil => rfl
  | cons x past ih =>
      obtain ⟨p, l⟩ := x
      cases l with
      | start t' c' =>
          rw [calling, started]
          split
          next => rfl
          next => exact ih
      | act | exit => exact ih

theorem started_calling (h : started t past = some (c, n)) : calling t past = some c := by
  rw [calling_eq, h, Option.map_some]

theorem calling_started (h : calling t past = some c) : ∃ n, started t past = some (c, n) := by
  rw [calling_eq] at h
  obtain ⟨⟨_, n⟩, hstarted, rfl⟩ := Option.map_eq_some_iff.mp h
  exact ⟨n, hstarted⟩

theorem started_lt (h : started t past = some (c, n)) : n < past.length := by
  obtain ⟨after, p, before, rfl, rfl, _⟩ := started_split h
  rw [List.length_append, List.length_cons]
  omega

/-- A call that is still the latest one has not been followed by another. -/
theorem started_mono (h : started t (after ++ before) = some (c, n)) (hn : n < before.length) :
    ∀ x ∈ after, ∀ c, x.2 ≠ .start t c := by
  obtain ⟨later, p, earlier, heq, rfl, hlater⟩ := started_split h
  obtain ⟨mid, hmid⟩ : (p, .start t c) :: earlier <:+ before :=
    List.suffix_of_suffix_length_le ⟨later, heq.symm⟩ ⟨after, rfl⟩ hn
  rw [← hmid, ← List.append_assoc] at heq
  obtain ⟨rfl, _⟩ := List.append_inj' heq rfl
  exact fun x hx => hlater x (List.mem_append_left _ hx)

theorem Occurrence.Returned.invoked (h : a.Returned past n) : a.Invoked past := by
  obtain ⟨after, p, before, rfl, _, hstarted⟩ := h
  obtain ⟨recent, q, old, rfl, hlength, _⟩ := started_split hstarted
  exact ⟨after ++ (p, .exit a.thread a.answer) :: recent, q, old,
    by rw [List.append_assoc, List.cons_append], hlength⟩

theorem Occurrence.Invoked.lt (h : a.Invoked past) : a.start < past.length := by
  obtain ⟨after, p, before, rfl, hlength⟩ := h
  rw [List.length_append, List.length_cons]
  omega

/-- As many steps before, the same call. -/
theorem Occurrence.Invoked.same (h : a.Invoked past) (h' : b.Invoked past)
    (hstart : a.start = b.start) : a.thread = b.thread ∧ a.call = b.call := by
  obtain ⟨_, _, _, heq, hlength⟩ := h
  obtain ⟨_, _, _, heq', hlength'⟩ := h'
  obtain ⟨_, hx, _⟩ := same_step heq heq' (hlength.trans (hstart.trans hlength'.symm))
  injection congrArg Prod.snd hx with hthread hcall
  exact ⟨hthread, hcall⟩

section Runs

variable {effect : Nat → (e : E) → I → σ → Option (R e × σ)} {program : C → Thread E R α} {init : σ}
  {p q : Pool σ E R α}

/-- A thread that has returned does nothing until it is called again. -/
theorem Run.silent {r : α}
    (hrun : Run effect program init (after ++ (q, .exit t r) :: before) p)
    (hafter : ∀ x ∈ after, ∀ c, x.2 ≠ .start t c) : p.threads t = none := by
  induction after generalizing p with
  | nil =>
      cases hrun with
      | step _ hstep =>
          cases hstep with
          | exit _ => exact Function.update_self ..
  | cons x after ih =>
      cases hrun with
      | @step _ u _ l hrun hstep =>
          have hfree := ih hrun fun y hy => hafter y (List.mem_cons_of_mem _ hy)
          have ht : l.thread ≠ t := by
            rintro rfl
            cases hstep with
            | start c _ => exact hafter _ List.mem_cons_self c rfl
            | act hact _ => cases hfree.symm.trans hact
            | exit hdone => cases hfree.symm.trans hdone
          rw [hstep.other ht]
          exact hfree

/-- A call that acts or returns has not returned before. -/
theorem Run.not_returned {l : Label C E R α} {m : Nat}
    (hrun : Run effect program init (after ++ (p, l) :: before) q)
    (hstarted : started l.thread before = some (c, m)) (hl : ∀ t c, l ≠ .start t c)
    (ha : a.Returned (after ++ (p, l) :: before) n) (hthread : a.thread = l.thread)
    (hm : a.start = m) : before.length ≤ n := by
  by_contra hlt
  obtain ⟨after', u, before', heq, rfl, hstarted'⟩ := ha
  obtain ⟨mid, rfl, _⟩ := earlier_step heq rfl (Nat.not_le.mp hlt)
  obtain ⟨hbefore, hstep⟩ := hrun.before
  rw [hthread] at hstarted' hbefore
  rw [hthread] at hstarted
  have hmid : ∀ x ∈ mid, ∀ c, x.2 ≠ .start l.thread c := by
    refine started_mono hstarted ?_
    rw [List.length_cons, ← hm]
    exact Nat.lt_succ_of_lt (started_lt hstarted')
  have hfree := hbefore.silent hmid
  generalize follower after q = w at hstep
  cases hstep with
  | start c _ => exact hl _ c rfl
  | act hact _ => cases hfree.symm.trans hact
  | exit hdone => cases hfree.symm.trans hdone

/-- A call returns once. -/
theorem Run.returned_once {m : Nat} (hrun : Run effect program init past p)
    (ha : a.Returned past n) (hb : b.Returned past m) (hstart : a.start = b.start) : a = b := by
  obtain ⟨hthread, hcall⟩ := ha.invoked.same hb.invoked hstart
  have hle : ∀ {a b : Occurrence C α} {n m : Nat}, a.Returned past n → b.Returned past m →
      a.start = b.start → a.thread = b.thread → m ≤ n := by
    rintro a b n m ha ⟨after, u, before, rfl, rfl, hstarted⟩ hstart hthread
    exact hrun.not_returned hstarted nofun ha hthread hstart
  have hn := Nat.le_antisymm (hle hb ha hstart.symm hthread.symm) (hle ha hb hstart hthread)
  obtain ⟨_, _, _, heq, hlength, _⟩ := ha
  obtain ⟨_, _, _, heq', hlength', _⟩ := hb
  obtain ⟨_, hx, _⟩ := same_step heq heq' (hlength.trans (hn.trans hlength'.symm))
  injection congrArg Prod.snd hx with _ hanswer
  exact Occurrence.ext hthread hstart hcall hanswer

end Runs

/-- Calls told in the order of points that lie between their starts and their ends. -/
theorem linearizes_points {order : List (Occurrence C α)} {point : Occurrence C α → Nat}
    (honce : (order.map Occurrence.start).Nodup) (hinvoked : ∀ x ∈ order, x.Invoked past)
    (hreturned : ∀ x n, x.Returned past n → x ∈ order)
    (hstart : ∀ x ∈ order, x.start ≤ point x)
    (hend : ∀ x ∈ order, ∀ n, x.Returned past n → point x < n)
    (hsorted : order.Pairwise fun a b => point b ≤ point a) : Linearizes past order where
  once := honce
  invoked := hinvoked
  returned := hreturned
  realTime := hsorted.imp_of_mem fun ha hb hle n hn =>
    Nat.lt_of_le_of_lt ((hstart _ hb).trans hle) (hend _ ha n hn)

/-- Calls that start at different steps can be listed. -/
theorem exists_calls {P : Occurrence C α → Prop} (hlt : ∀ x, P x → x.start < n)
    (hinj : ∀ x y, P x → P y → x.start = y.start → x = y) :
    ∃ L : List (Occurrence C α), (L.map Occurrence.start).Nodup ∧ ∀ x, x ∈ L ↔ P x := by
  have hfinite : {x | P x}.Finite := by
    refine Set.Finite.of_injOn (f := Occurrence.start) (t := Set.Iio n) (fun x hx => hlt x hx)
      (fun x hx y hy => hinj x y hx hy) (Set.finite_Iio n)
  refine ⟨hfinite.toFinset.toList, ?_, fun x => ?_⟩
  · refine List.Nodup.map_on (fun x hx y hy => ?_) (Finset.nodup_toList _)
    simp only [Finset.mem_toList, Set.Finite.mem_toFinset, Set.mem_ofPred_eq] at hx hy
    exact hinj x y hx hy
  · simp only [Finset.mem_toList, Set.Finite.mem_toFinset, Set.mem_ofPred_eq]

end Histories

end Pool
