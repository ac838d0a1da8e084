import StarCache.Space.DirWeights

/-!
# Directory routing

As long as all directories are enabled, the calls of `next_dir_index` are the rounds of a smooth
weighted round-robin whose weights are the quotas, so no sum overflows and the directories are
chosen in proportion to their quotas.
-/

namespace StarCache

open MachineInt WeightedRounds

namespace CacheDirRouter

/-- `next_dir_index`, which has no defined outcome when a sum overflows. -/
def nextDirIndex64 : Prog CacheDirRouter (Option Nat) := fun router =>
  let r := router.nextDirIndex
  if r.2.overflowed then none else some r

/-- Successive calls of `next_dir_index`, answered with the latest choice first. -/
def choices : Nat → Prog CacheDirRouter (List (Option Nat))
  | 0 => pure []
  | t + 1 => do
      let chosen ← choices t
      let index ← nextDirIndex64
      pure (index :: chosen)

section Rounds

variable {dirs : List CacheDir} {cur : Fin dirs.length → Int} {router : CacheDirRouter}

/-- All directories are enabled, with the current weights `cur`. -/
def AllWeigh (dirs : List CacheDir) (cur : Fin dirs.length → Int) (router : CacheDirRouter) :
    Prop :=
  Weighs (fun i : Fin dirs.length => (dirs.get i).index) (quota dirs) cur (fun _ => true) router

theorem taking_all {n : Nat} : taking (fun _ : Fin n => true) = Finset.univ := by
  unfold taking
  simp

theorem AllWeigh.curWeights (h : AllWeigh dirs cur router) :
    router.dirWeights.map (·.curWeight) = List.ofFn cur := by
  rw [h.weights, List.map_ofFn]
  rfl

/-- A round of the run is free of overflows. -/
theorem AllWeigh.nextDirIndex64 {chosen : List (Fin dirs.length)} (h : AllWeigh dirs cur router)
    (hrounds : Rounds (quota dirs) chosen cur) (hpos : 0 < total dirs)
    (hfits : max (dirs.length : Int) 2 * total dirs < 2 ^ 63) :
    ∃ i cur' router', router.nextDirIndex64 = some (some (i : Fin dirs.length).val, router') ∧
      AllWeigh dirs cur' router' ∧ Rounds (quota dirs) (i :: chosen) cur' := by
  have hsum := total_eq dirs
  have hlarge : total dirs ≤ max (dirs.length : Int) 2 * total dirs := by
    nlinarith [le_max_right (dirs.length : Int) 2]
  have hmax : (dirs.length : Int) * total dirs ≤ max (dirs.length : Int) 2 * total dirs :=
    mul_le_mul_of_nonneg_right (le_max_left _ _) hpos.le
  have hraised : ∀ i, true = true → i64 (cur i + quota dirs i) = cur i + quota dirs i := by
    intro j _
    have hgt := hrounds.gt (quota_nonneg dirs) (by omega) j
    have hle := hrounds.raised_le (quota_nonneg dirs) j
    have hnonneg := quota_nonneg dirs j
    rw [Fintype.card_fin, ← hsum] at hle
    rw [← hsum] at hgt
    exact i64_eq (by omega) (by omega)
  have hlow : ∀ i cur', Round (quota dirs) cur (taking fun _ => true) i cur' →
      i64 (cur' i) = cur' i := by
    intro i cur' hround
    rw [taking_all] at hround
    have hrounds' := hrounds.next hround
    have hgt := hrounds'.gt (quota_nonneg dirs) (by omega) i
    have hle := hrounds'.le (quota_nonneg dirs) i
    rw [Fintype.card_fin, ← hsum] at hle
    rw [← hsum] at hgt
    exact i64_eq (by omega) (by omega)
  rcases Weighs.nextDirIndex h (quota_nonneg dirs) (by omega) hraised hlow with
    ⟨_, hnone, _⟩ | ⟨i, cur', hindex, hround, hweighs'⟩
  · -- without directories there would be no quota
    rw [taking_all] at hnone
    rw [hsum, hnone, Finset.sum_empty] at hpos
    cases hpos
  · rw [taking_all] at hround
    refine ⟨i, cur', router.nextDirIndex.2, ?_, hweighs', hrounds.next hround⟩
    unfold CacheDirRouter.nextDirIndex64
    dsimp only
    rw [hweighs'.exact, if_neg Bool.false_ne_true, ← hindex]

theorem choices_rounds (dirs : List CacheDir) (hpos : 0 < total dirs)
    (hfits : max (dirs.length : Int) 2 * total dirs < 2 ^ 63) (t : Nat) :
    ∃ (chosen : List (Fin dirs.length)) (cur : Fin dirs.length → Int) (router : CacheDirRouter),
      choices t (added dirs) = some (chosen.map fun i => some i.val, router) ∧
        chosen.length = t ∧ AllWeigh dirs cur router ∧ Rounds (quota dirs) chosen cur := by
  have htotal : total dirs < 2 ^ 63 := by
    nlinarith [le_max_right (dirs.length : Int) 2]
  induction t with
  | zero => exact ⟨[], quota dirs, added dirs, rfl, rfl, added_weighs dirs htotal, .start⟩
  | succ t ih =>
      obtain ⟨chosen, cur, router, hrun, hlength, hweighs, hrounds⟩ := ih
      obtain ⟨i, cur', router', hnext, hweighs', hrounds'⟩ :=
        hweighs.nextDirIndex64 hrounds hpos hfits
      refine ⟨i :: chosen, cur', router', ?_, by simp [hlength], hweighs', hrounds'⟩
      exact Prog.bind_eq_some.mpr ⟨_, _, hrun, Prog.bind_eq_some.mpr ⟨_, _, hnext, rfl⟩⟩

end Rounds

/-- Directory routing is in proportion to the quotas. -/
theorem routing_proportional (dirs : List CacheDir) (hpos : 0 < total dirs)
    (hfits : dirs.length * total dirs < 2 ^ 63) (htwo : 2 * total dirs < 2 ^ 63) (t : Nat) :
    ∃ chosen router, choices t (added dirs) = some (chosen, router) ∧ chosen.length = t ∧
      (∀ index ∈ chosen, ∃ i < dirs.length, index = some i) ∧
      (router.dirWeights.map (·.curWeight)).sum = total dirs ∧
      (∀ dw ∈ router.dirWeights, dw.enable = true ∧ - total dirs < dw.curWeight ∧
        dw.curWeight ≤ dirs.length * total dirs) ∧
      ∀ i dir, dirs[i]? = some dir →
        |chosen.count (some i) * total dirs - t * dir.quotaBytes| <
          (dirs.length + 1) * total dirs := by
  have hmax : max (dirs.length : Int) 2 * total dirs < 2 ^ 63 := by
    rcases max_choice (dirs.length : Int) 2 with hcase | hcase
    · rwa [hcase]
    · rwa [hcase]
  obtain ⟨chosen, cur, router, hrun, hlength, hweighs, hrounds⟩ := choices_rounds dirs hpos hmax t
  have hsum := total_eq dirs
  refine ⟨_, router, hrun, by simpa using hlength, ?_, ?_, ?_, ?_⟩
  · intro index hindex
    obtain ⟨i, _, rfl⟩ := List.mem_map.mp hindex
    exact ⟨i, i.isLt, rfl⟩
  · rw [hweighs.curWeights, List.sum_ofFn, hrounds.sum, hsum]
  · intro dw hdw
    rw [hweighs.weights, List.mem_ofFn] at hdw
    obtain ⟨j, rfl⟩ := hdw
    have hgt := hrounds.gt (quota_nonneg dirs) (by omega) j
    have hle := hrounds.le (quota_nonneg dirs) j
    rw [Fintype.card_fin, ← hsum] at hle
    rw [← hsum] at hgt
    exact ⟨rfl, hgt, hle⟩
  · intro i dir hdir
    obtain ⟨hi, rfl⟩ := List.getElem?_eq_some_iff.mp hdir
    have hinj : Function.Injective fun i : Fin dirs.length => some i.val := by
      intro a b hab
      exact Fin.ext (Option.some.inj hab)
    have hcount := List.count_map_of_injective chosen _ hinj ⟨i, hi⟩
    have hdrift := hrounds.drift (quota_nonneg dirs) (by omega) ⟨i, hi⟩
    rw [Fintype.card_fin, ← hsum, hlength] at hdrift
    rw [hcount]
    exact hdrift

theorem routing_proportional_pair :
    ∃ chosen router, choices 4 (added [.create .default 0 3145728, .create .default 1 1048576]) =
      some (chosen, router) ∧ chosen.length = 4 := by
  obtain ⟨chosen, router, hrun, hlength, _⟩ := routing_proportional
    [.create .default 0 3145728, .create .default 1 1048576] (by decide +kernel) (by decide +kernel)
    (by decide +kernel) 4
  exact ⟨chosen, router, hrun, hlength⟩

/-- The raised weight of an only directory overflows before the total is taken off again. -/
theorem choices_overflow :
    0 < total [.create .default 0 (2 ^ 62)] ∧ 1 * total [.create .default 0 (2 ^ 62)] < 2 ^ 63 ∧
      choices 1 (added [.create .default 0 (2 ^ 62)]) = none := by
  decide +kernel

end CacheDirRouter

end StarCache
