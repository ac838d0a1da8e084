import Mathlib.Algebra.BigOperators.Ring.Finset
import Mathlib.Algebra.Order.BigOperators.Group.Finset
import Mathlib.Algebra.Order.Group.Unbundled.Abs
import Mathlib.Data.Fintype.EquivFin
import Mathlib.Tactic.Linarith
import Mathlib.Tactic.Ring

/-!
# Smooth weighted round-robin

In each round every index that takes part gains its weight, and the one that has the most then
is chosen and pays the sum of these weights. The sum of what the indexes have is kept.

When all indexes take part in every round, the choice has at least the average, so no index
can fall far behind: the number of times an index is chosen stays in proportion to its weight.
When the indexes that take part change from round to round, what any set of indexes has
together still stays above a floor that depends on the number of its indexes only.
-/

namespace WeightedRounds

variable {ι : Type} [Fintype ι] [DecidableEq ι]

/-- A round in which the indexes of `E` take part and that chooses `i`. -/
structure Round (w cur : ι → ℤ) (E : Finset ι) (i : ι) (cur' : ι → ℤ) : Prop where
  mem : i ∈ E
  most : ∀ j ∈ E, cur j + w j ≤ cur i + w i
  next : ∀ j, cur' j =
    cur j + (if j ∈ E then w j else 0) - if j = i then ∑ k ∈ E, w k else 0

/-- Rounds of all indexes from the weights on, latest choice first. -/
inductive Rounds (w : ι → ℤ) : List ι → (ι → ℤ) → Prop
  | start : Rounds w [] w
  | next {chosen : List ι} {cur cur' : ι → ℤ} {i : ι} :
      Rounds w chosen cur → Round w cur Finset.univ i cur' → Rounds w (i :: chosen) cur'

variable {w cur cur' : ι → ℤ} {chosen : List ι} {E : Finset ι} {i : ι}

theorem Round.sum (h : Round w cur E i cur') : ∑ j, cur' j = ∑ j, cur j := by
  simp only [h.next, Finset.sum_sub_distrib, Finset.sum_add_distrib, Finset.sum_ite_eq',
    Finset.mem_univ, if_true, Finset.sum_ite_mem, Finset.univ_inter]
  ring

section All

/-! ## Rounds of all indexes -/

theorem Round.next_all (h : Round w cur Finset.univ i cur') (j : ι) :
    cur' j = cur j + w j - if j = i then ∑ k, w k else 0 := by
  rw [h.next, if_pos (Finset.mem_univ j)]

/-- When each of some numbers is at least `a / n`, none is much more than their sum. -/
theorem le_of_sum {x : ι → ℤ} {a : ℤ} (h : ∀ j, a ≤ Fintype.card ι * x j) (j : ι) :
    Fintype.card ι * x j ≤ Fintype.card ι * ∑ k, x k - (Fintype.card ι - 1) * a := by
  have hsplit := Finset.add_sum_erase Finset.univ (fun k => Fintype.card ι * x k)
    (Finset.mem_univ j)
  have hrest : (Finset.univ.erase j).card • a ≤
      ∑ k ∈ Finset.univ.erase j, Fintype.card ι * x k :=
    Finset.card_nsmul_le_sum _ _ _ fun k _ => h k
  rw [Finset.card_erase_of_mem (Finset.mem_univ j), Finset.card_univ, nsmul_eq_mul,
    Nat.cast_sub (Fintype.card_pos_iff.mpr ⟨j⟩), Nat.cast_one] at hrest
  rw [Finset.mul_sum]
  linarith

/-- The choice has at least the average. -/
theorem Round.average (h : Round w cur Finset.univ i cur') :
    ∑ j, cur j + ∑ j, w j ≤ Fintype.card ι * (cur i + w i) := by
  rw [← Finset.sum_add_distrib]
  have hle := Finset.sum_le_card_nsmul Finset.univ (fun j => cur j + w j) (cur i + w i)
    h.most
  rwa [Finset.card_univ, nsmul_eq_mul] at hle

theorem Rounds.sum (h : Rounds w chosen cur) : ∑ j, cur j = ∑ j, w j := by
  induction h with
  | start => rfl
  | next _ hround ih => rw [hround.sum, ih]

/-- What an index has is what it has gained less what it has paid. -/
theorem Rounds.balance (h : Rounds w chosen cur) (j : ι) :
    cur j = (chosen.length + 1) * w j - chosen.count j * ∑ k, w k := by
  induction h with
  | start => simp
  | @next chosen cur cur' i _ hround ih =>
      rw [hround.next_all, ih, List.length_cons, List.count_cons]
      by_cases hij : j = i
      · subst hij
        rw [if_pos rfl, if_pos (beq_self_eq_true _)]
        push_cast
        ring
      · have hne : (i == j) = false := by simpa using fun heq => hij heq.symm
        rw [if_neg hij, hne, if_neg Bool.false_ne_true]
        push_cast
        ring

section Bounds

variable (hw : ∀ j, 0 ≤ w j)

include hw

omit [DecidableEq ι] in
theorem weight_le_sum (j : ι) : w j ≤ ∑ k, w k :=
  Finset.single_le_sum (fun k _ => hw k) (Finset.mem_univ j)

/-- The lower bound, which follows from the choice of the most. -/
theorem Rounds.lower (h : Rounds w chosen cur) (j : ι) :
    (2 - Fintype.card ι) * ∑ k, w k ≤ Fintype.card ι * cur j := by
  have hsum : 0 ≤ ∑ k, w k := Finset.sum_nonneg fun k _ => hw k
  have hcard : 1 ≤ Fintype.card ι := Fintype.card_pos_iff.mpr ⟨j⟩
  induction h with
  | start =>
      rcases Nat.eq_or_lt_of_le hcard with hone | htwo
      · -- the only index has all the weight
        have : Subsingleton ι := Fintype.card_le_one_iff_subsingleton.mp (by omega)
        rw [Fintype.sum_subsingleton w j, ← hone]
        norm_num
      · have hcast : (2 : ℤ) ≤ Fintype.card ι := by exact_mod_cast htwo
        have hneg : (2 - (Fintype.card ι : ℤ)) * ∑ k, w k ≤ 0 :=
          mul_nonpos_of_nonpos_of_nonneg (by omega) hsum
        exact hneg.trans (mul_nonneg (by omega) (hw j))
  | @next chosen cur cur' i hrounds hround ih =>
      by_cases hij : j = i
      · subst hij
        have haverage := hround.average
        rw [hrounds.sum] at haverage
        rw [hround.next_all, if_pos rfl, mul_sub]
        linarith
      · rw [hround.next_all, if_neg hij, mul_sub, mul_add, mul_zero]
        have hgain : 0 ≤ (Fintype.card ι : ℤ) * w j := mul_nonneg (by omega) (hw j)
        linarith

theorem Rounds.gt (h : Rounds w chosen cur) (hpos : 0 < ∑ k, w k) (j : ι) :
    - ∑ k, w k < cur j := by
  have hcard : 0 < Fintype.card ι := Fintype.card_pos_iff.mpr ⟨j⟩
  have hcast : (0 : ℤ) < Fintype.card ι := by exact_mod_cast hcard
  have hlower := h.lower hw j
  apply lt_of_mul_lt_mul_left (a := (Fintype.card ι : ℤ)) _ hcast.le
  linarith

theorem Rounds.le (h : Rounds w chosen cur) (j : ι) : cur j ≤ Fintype.card ι * ∑ k, w k := by
  have hsum : 0 ≤ ∑ k, w k := Finset.sum_nonneg fun k _ => hw k
  have hcard : 0 < Fintype.card ι := Fintype.card_pos_iff.mpr ⟨j⟩
  have hcast : (1 : ℤ) ≤ Fintype.card ι := by exact_mod_cast hcard
  have hupper := le_of_sum (h.lower hw) j
  rw [h.sum] at hupper
  apply le_of_mul_le_mul_left (a := (Fintype.card ι : ℤ)) _ (by omega)
  nlinarith [mul_nonneg (sub_nonneg.mpr hcast) hsum]

/-- What an index has in the middle of a round. -/
theorem Rounds.raised_le (h : Rounds w chosen cur) (j : ι) :
    cur j + w j ≤ max (Fintype.card ι : ℤ) 2 * ∑ k, w k := by
  have hsum : 0 ≤ ∑ k, w k := Finset.sum_nonneg fun k _ => hw k
  have hcard : 1 ≤ Fintype.card ι := Fintype.card_pos_iff.mpr ⟨j⟩
  have hraised : ∀ k,
      (2 - (Fintype.card ι : ℤ)) * ∑ k, w k ≤ Fintype.card ι * (cur k + w k) := by
    intro k
    rw [mul_add]
    have hgain : 0 ≤ (Fintype.card ι : ℤ) * w k := mul_nonneg (by omega) (hw k)
    have hlower := h.lower hw k
    linarith
  have hupper := le_of_sum hraised j
  rw [Finset.sum_add_distrib, h.sum] at hupper
  rcases Nat.eq_or_lt_of_le hcard with hone | htwo
  · rw [← hone] at hupper ⊢
    norm_num at hupper ⊢
    linarith
  · have hcast : (2 : ℤ) ≤ Fintype.card ι := by exact_mod_cast htwo
    rw [max_eq_left hcast]
    apply le_of_mul_le_mul_left (a := (Fintype.card ι : ℤ)) _ (by omega)
    nlinarith [mul_nonneg (sub_nonneg.mpr hcast) hsum]

/-- The choices are in proportion to the weights. -/
theorem Rounds.drift (h : Rounds w chosen cur) (hpos : 0 < ∑ k, w k) (j : ι) :
    |chosen.count j * ∑ k, w k - chosen.length * w j| < (Fintype.card ι + 1) * ∑ k, w k := by
  have hcard : 0 < Fintype.card ι := Fintype.card_pos_iff.mpr ⟨j⟩
  have hcast : (1 : ℤ) ≤ Fintype.card ι := by exact_mod_cast hcard
  have hbalance := h.balance j
  have hgt := h.gt hw hpos j
  have hle := h.le hw j
  have hweight := weight_le_sum hw j
  have hnonneg := hw j
  have htotal : ∑ k, w k ≤ Fintype.card ι * ∑ k, w k :=
    le_mul_of_one_le_left hpos.le hcast
  rw [abs_lt]
  constructor
  · linarith
  · linarith

end Bounds

end All

section Some

/-! ## Rounds of some of the indexes -/

/-- Together, the indexes of a set of `s` out of `n` owe at most `s (n - s)` times the sum of all
weights. -/
def Spread (w cur : ι → ℤ) : Prop :=
  ∀ S : Finset ι, -((S.card : ℤ) * (Fintype.card ι - S.card) * ∑ k, w k) ≤ ∑ k ∈ S, cur k

omit [DecidableEq ι] in
theorem spread_of_nonneg (hw : ∀ j, 0 ≤ w j) (hcur : ∀ j, 0 ≤ cur j) : Spread w cur := by
  intro S
  have hcard : (S.card : ℤ) ≤ Fintype.card ι := by exact_mod_cast S.card_le_univ
  have hfloor : 0 ≤ (S.card : ℤ) * (Fintype.card ι - S.card) * ∑ k, w k :=
    mul_nonneg (mul_nonneg (by omega) (by omega)) (Finset.sum_nonneg fun k _ => hw k)
  have hsum : 0 ≤ ∑ k ∈ S, cur k := Finset.sum_nonneg fun k _ => hcur k
  omega

omit [DecidableEq ι] in
theorem Spread.mono (h : Spread w cur) (hle : ∀ j, cur j ≤ cur' j) : Spread w cur' :=
  fun S => (h S).trans (Finset.sum_le_sum fun j _ => hle j)

omit [Fintype ι] in
/-- What a set has after a round, when none of its indexes is chosen. -/
theorem Round.sum_of_not_mem (hw : ∀ j, 0 ≤ w j) (h : Round w cur E i cur') {S : Finset ι}
    (hi : i ∉ S) : ∑ k ∈ S, cur k ≤ ∑ k ∈ S, cur' k := by
  apply Finset.sum_le_sum
  intro j hj
  have hne : j ≠ i := by
    rintro rfl
    exact hi hj
  rw [h.next, if_neg hne]
  split
  next =>
    have hgain := hw j
    omega
  next => omega

omit [Fintype ι] in
/-- What a set has after a round, when all that take part are in it. -/
theorem Round.sum_of_subset (h : Round w cur E i cur') {S : Finset ι} (hE : E ⊆ S) :
    ∑ k ∈ S, cur' k = ∑ k ∈ S, cur k := by
  simp only [h.next, Finset.sum_sub_distrib, Finset.sum_add_distrib, Finset.sum_ite_eq',
    hE h.mem, if_true, Finset.sum_ite_mem, Finset.inter_eq_right.mpr hE]
  ring

/-- A round keeps the floors. The chosen index falls at most the sum of the weights below another
that takes part, so that the set is held up by the same set with that one added and by the
same set with the chosen one taken away. -/
theorem Round.spread (hw : ∀ j, 0 ≤ w j) (hround : Round w cur E i cur') (h : Spread w cur) :
    Spread w cur' := by
  intro S
  refine Finset.strongDownwardInductionOn S (fun S ih hle => ?_) S.card_le_univ
  have hsum : 0 ≤ ∑ k, w k := Finset.sum_nonneg fun k _ => hw k
  by_cases hi : i ∈ S
  swap
  · exact (h S).trans (hround.sum_of_not_mem hw hi)
  by_cases hE : E ⊆ S
  · rw [hround.sum_of_subset hE]
    exact h S
  obtain ⟨j, hjE, hjS⟩ := Finset.not_subset.mp hE
  have hne : j ≠ i := by
    rintro rfl
    exact hjS hi
  have hlt : S.card < Fintype.card ι := Finset.card_lt_univ_of_notMem hjS
  -- the larger set, after the round
  have hroom : (insert j S).card ≤ Fintype.card ι := by
    rw [Finset.card_insert_of_notMem hjS]
    omega
  have hlarge := ih hroom (Finset.ssubset_insert hjS)
  rw [Finset.card_insert_of_notMem hjS, Finset.sum_insert hjS] at hlarge
  -- the smaller set, before the round
  have hsmall := (h (S.erase i)).trans (hround.sum_of_not_mem hw (Finset.notMem_erase i S))
  have hcard : 0 < S.card := Finset.card_pos.mpr ⟨i, hi⟩
  rw [Finset.card_erase_of_mem hi, Nat.cast_sub hcard] at hsmall
  rw [← Finset.add_sum_erase S cur' hi] at hlarge ⊢
  -- the chosen index against the one added
  have hmost := hround.most j hjE
  have hchosen : cur' i = cur i + w i - ∑ k ∈ E, w k := by
    rw [hround.next, if_pos hround.mem, if_pos rfl]
  have hother : cur' j = cur j + w j := by
    rw [hround.next, if_pos hjE, if_neg hne, sub_zero]
  have htotal : ∑ k ∈ E, w k ≤ ∑ k, w k :=
    Finset.sum_le_sum_of_subset_of_nonneg (Finset.subset_univ E) fun k _ _ => hw k
  push_cast at hlarge hsmall
  nlinarith

/-- What an index has is bounded by what all have. -/
theorem Spread.bounds (h : Spread w cur) (j : ι) :
    -((Fintype.card ι - 1) * ∑ k, w k) ≤ cur j ∧
      cur j ≤ ∑ k, cur k + (Fintype.card ι - 1) * ∑ k, w k := by
  have hcard : 0 < Fintype.card ι := Fintype.card_pos_iff.mpr ⟨j⟩
  constructor
  · have hself := h {j}
    rw [Finset.card_singleton, Finset.sum_singleton] at hself
    simpa using hself
  · have hothers := h (Finset.univ.erase j)
    rw [Finset.card_erase_of_mem (Finset.mem_univ j), Finset.card_univ,
      Nat.cast_sub hcard, Nat.cast_one] at hothers
    have hsplit := Finset.add_sum_erase Finset.univ cur (Finset.mem_univ j)
    linarith

end Some

end WeightedRounds
