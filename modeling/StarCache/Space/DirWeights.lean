import StarCache.Foundation.WeightedRounds
import StarCache.Space.DiskSpaceManager
import Mathlib.Algebra.BigOperators.Fin

/-!
# Weights of the router

As long as no sum overflows, a call of `next_dir_index` is a round of the enabled directories,
and the weight that a freed block gives its directory is a gain of that directory alone. So
the current weights stay within bounds that depend on the quotas and on the number of freed
blocks, and below these no sum overflows.
-/

namespace StarCache

open MachineInt WeightedRounds

namespace CacheDirRouter

theorem pick_none : ∀ (weights : List DirWeight) (idx : Nat) (best : Option (Nat × Int)),
    pick weights idx best = none → best = none ∧ ∀ dw ∈ weights, dw.enable = false
  | [], _, _, h => ⟨h, by simp⟩
  | dw :: rest, idx, best, h => by
      unfold pick at h
      split at h
      next =>
        split at h
        next => exact absurd (pick_none rest _ _ h).1 (by simp)
        next => exact absurd (pick_none rest _ _ h).1 (by split <;> nofun)
      next hdisabled =>
        obtain ⟨hbest, hrest⟩ := pick_none rest _ _ h
        refine ⟨hbest, fun dw' hdw' => ?_⟩
        rcases List.mem_cons.mp hdw' with rfl | hdw'
        · simpa using hdisabled
        · exact hrest dw' hdw'

/-- No directory has more than the choice. -/
theorem pick_most {weights : List DirWeight} {idx : Nat} {best : Option (Nat × Int)} {i : Nat}
    {w : Int} (h : pick weights idx best = some (i, w)) :
    (∀ j v, best = some (j, v) → v ≤ w) ∧ ∀ dw ∈ weights, dw.enable = true → dw.curWeight ≤ w := by
  fun_induction pick weights idx best with
  | case1 =>
      subst h
      simp
  | case2 dw rest idx henable ih =>
      obtain ⟨hself, hrest⟩ := ih h
      have hdw := hself idx dw.curWeight rfl
      simpa [hdw] using hrest
  | case3 dw rest idx henable j v ih =>
      obtain ⟨hself, hrest⟩ := ih h
      have hboth : v ≤ w ∧ dw.curWeight ≤ w := by
        split at hself
        next hlt =>
          have hdw := hself idx dw.curWeight rfl
          omega
        next hle =>
          have hv := hself j v rfl
          omega
      simpa [hboth] using hrest
  | case4 dw rest idx best hdisabled ih =>
      obtain ⟨hbest, hrest⟩ := ih h
      exact ⟨hbest, by simpa [hdisabled] using hrest⟩

variable {n : Nat} {index : Fin n → Nat} {w cur : Fin n → Int} {enabled : Fin n → Bool}
  {router : CacheDirRouter}

/-- The directories have the weights `w` and the current weights `cur`, and no sum has
overflowed. -/
structure Weighs (index : Fin n → Nat) (w cur : Fin n → Int) (enabled : Fin n → Bool)
    (router : CacheDirRouter) : Prop where
  weights : router.dirWeights = List.ofFn fun i => ⟨index i, w i, cur i, enabled i⟩
  exact : router.overflowed = false

/-- The directories that take part in a round. -/
def taking (enabled : Fin n → Bool) : Finset (Fin n) := Finset.univ.filter fun i => enabled i = true

theorem sum_filter_enable (weights : List DirWeight) :
    ((weights.filter (·.enable)).map (·.weight)).sum =
      (weights.map fun dw => if dw.enable = true then dw.weight else 0).sum := by
  induction weights with
  | nil => rfl
  | cons dw rest ih =>
      rw [List.filter_cons, List.map_cons, List.sum_cons, ← ih]
      split <;> simp

theorem Weighs.total (h : Weighs index w cur enabled router) :
    ((router.dirWeights.filter (·.enable)).map (·.weight)).sum = ∑ i ∈ taking enabled, w i := by
  rw [sum_filter_enable, h.weights, List.map_ofFn, List.sum_ofFn]
  unfold taking
  rw [Finset.sum_filter]
  rfl

/-- Each value that `total` runs through is a part of the whole. -/
theorem Weighs.totals (h : Weighs index w cur enabled router) (hw : ∀ i, 0 ≤ w i) (k : Nat) :
    0 ≤ (((router.dirWeights.filter (·.enable)).take k).map (·.weight)).sum ∧
      (((router.dirWeights.filter (·.enable)).take k).map (·.weight)).sum ≤ ∑ i, w i := by
  have hnonneg : ∀ x ∈ (router.dirWeights.filter (·.enable)).map (·.weight), 0 ≤ x := by
    intro x hx
    obtain ⟨dw, hdw, rfl⟩ := List.mem_map.mp hx
    have hmem := List.mem_of_mem_filter hdw
    rw [h.weights, List.mem_ofFn] at hmem
    obtain ⟨i, rfl⟩ := hmem
    exact hw i
  have hsplit := List.sum_take_add_sum_drop
    ((router.dirWeights.filter (·.enable)).map (·.weight)) k
  have htake := List.sum_nonneg fun x hx => hnonneg x (List.mem_of_mem_take (i := k) hx)
  have hdrop := List.sum_nonneg fun x hx => hnonneg x (List.mem_of_mem_drop (i := k) hx)
  have htotal : ∑ i ∈ taking enabled, w i ≤ ∑ i, w i :=
    Finset.sum_le_sum_of_subset_of_nonneg (Finset.subset_univ _) fun i _ _ => hw i
  rw [h.total] at hsplit
  rw [List.map_take]
  omega

/-- The current weights in the middle of a round. -/
theorem Weighs.raised (h : Weighs index w cur enabled router)
    (hfits : ∀ i, enabled i = true → i64 (cur i + w i) = cur i + w i) :
    (router.dirWeights.map fun dw =>
        if dw.enable = true then { dw with curWeight := i64 (dw.curWeight + dw.weight) } else dw) =
      List.ofFn fun i => ⟨index i, w i, cur i + (if enabled i = true then w i else 0), enabled i⟩ := by
  rw [h.weights, List.map_ofFn]
  congr 1
  funext i
  dsimp only [Function.comp_apply]
  split
  next hon => rw [hfits i hon]
  next => rw [Int.add_zero]

/-- A call of `next_dir_index` whose sums are in range is a round of the enabled directories. -/
theorem Weighs.nextDirIndex (h : Weighs index w cur enabled router) (hw : ∀ i, 0 ≤ w i)
    (htotal : ∑ i, w i < 2 ^ 63)
    (hraised : ∀ i, enabled i = true → i64 (cur i + w i) = cur i + w i)
    (hlow : ∀ i cur', Round w cur (taking enabled) i cur' → i64 (cur' i) = cur' i) :
    (router.nextDirIndex.1 = none ∧ taking enabled = ∅ ∧
        Weighs index w cur enabled router.nextDirIndex.2) ∨
      ∃ i cur', router.nextDirIndex.1 = some (i : Fin n).val ∧
        Round w cur (taking enabled) i cur' ∧
        Weighs index w cur' enabled router.nextDirIndex.2 := by
  have hsums : (((router.dirWeights.filter (·.enable)).map fun dw => dw.curWeight + dw.weight) ++
      (List.range ((router.dirWeights.filter (·.enable)).length + 1)).map fun k =>
        (((router.dirWeights.filter (·.enable)).take k).map (·.weight)).sum).all fitsI64 = true := by
    rw [List.all_eq_true]
    intro x hx
    rw [List.mem_append, List.mem_map, List.mem_map] at hx
    rw [fitsI64_iff]
    rcases hx with ⟨dw, hdw, rfl⟩ | ⟨k, _, rfl⟩
    · obtain ⟨hmem, hon⟩ := List.mem_filter.mp hdw
      rw [h.weights, List.mem_ofFn] at hmem
      obtain ⟨i, rfl⟩ := hmem
      exact hraised i hon
    · have hpart := h.totals hw k
      exact i64_eq (by omega) (by omega)
  have hsum : i64 ((router.dirWeights.filter (·.enable)).map (·.weight)).sum =
      ∑ i ∈ taking enabled, w i := by
    have hwhole := h.totals hw (router.dirWeights.filter (·.enable)).length
    rw [List.take_length] at hwhole
    rw [← h.total]
    exact i64_eq (by omega) (by omega)
  unfold CacheDirRouter.nextDirIndex
  dsimp only
  rw [hsums, hsum, h.raised hraised, h.exact]
  cases hpick : pick (List.ofFn fun i : Fin n => (⟨index i, w i,
      cur i + (if enabled i = true then w i else 0), enabled i⟩ : DirWeight)) 0 none with
  | none =>
      have hall := (pick_none _ _ _ hpick).2
      have hoff : ∀ i, enabled i = false := fun i => hall _ (List.mem_ofFn.mpr ⟨i, rfl⟩)
      refine Or.inl ⟨rfl, ?_, ?_, rfl⟩
      · unfold taking
        rw [Finset.filter_eq_empty_iff]
        intro i _
        rw [hoff i]
        exact Bool.false_ne_true
      · dsimp only
        congr 1
        funext i
        rw [hoff i, if_neg Bool.false_ne_true, Int.add_zero]
  | some best =>
      obtain ⟨i, v⟩ := best
      right
      rcases pick_chosen hpick with hnone | ⟨dw, hget, hon, hweight, _⟩
      · cases hnone
      rw [Nat.sub_zero, List.getElem?_ofFn] at hget
      split at hget
      swap
      · cases hget
      next hi =>
        cases hget
        dsimp only at hon hweight
        rw [if_pos hon] at hweight
        have hround : Round w cur (taking enabled) ⟨i, hi⟩ fun j =>
            cur j + (if j ∈ taking enabled then w j else 0) -
              if j = ⟨i, hi⟩ then ∑ k ∈ taking enabled, w k else 0 := by
          refine ⟨by simpa [taking] using hon, ?_, fun j => rfl⟩
          intro j hj
          have hjon : enabled j = true := by simpa [taking] using hj
          have hmost := (pick_most hpick).2 _ (List.mem_ofFn.mpr ⟨j, rfl⟩) hjon
          dsimp only at hmost
          rw [if_pos hjon, ← hweight] at hmost
          exact hmost
        have hchosen := hlow _ _ hround
        have hmem : (⟨i, hi⟩ : Fin n) ∈ taking enabled := hround.mem
        rw [if_pos hmem, if_pos rfl] at hchosen
        refine ⟨⟨i, hi⟩, _, rfl, hround, ?_, ?_⟩
        · apply List.ext_getElem?
          intro k
          rw [List.getElem?_modify, List.getElem?_ofFn, List.getElem?_ofFn]
          by_cases hk : k < n
          · rw [dif_pos hk, dif_pos hk]
            by_cases hik : i = k
            · subst hik
              simp [hmem, hon, hchosen]
            · have hki : ¬ k = i := fun heq => hik heq.symm
              simp [hik, hki, taking]
          · rw [dif_neg hk, dif_neg hk]
            rfl
        · dsimp only
          rw [← hweight, fitsI64_iff.mpr hchosen]
          rfl

/-- The weight of a freed block. -/
theorem Weighs.addDirWeight (h : Weighs index w cur enabled router) (i : Fin n) {b : Int}
    (hfits : i64 (cur i + b) = cur i + b) :
    Weighs index w (Function.update cur i (cur i + b)) (Function.update enabled i true)
      (router.addDirWeight i b) := by
  unfold CacheDirRouter.addDirWeight
  constructor
  · dsimp only
    rw [h.weights]
    apply List.ext_getElem?
    intro k
    rw [List.getElem?_modify, List.getElem?_ofFn, List.getElem?_ofFn]
    by_cases hk : k < n
    · rw [dif_pos hk, dif_pos hk]
      by_cases hik : i.val = k
      · subst hik
        simp [hfits]
      · have hne : (⟨k, hk⟩ : Fin n) ≠ i := by
          rintro rfl
          exact hik rfl
        simp [hik, hne]
    · rw [dif_neg hk, dif_neg hk]
      rfl
  · dsimp only
    rw [h.exact, h.weights, List.getElem?_ofFn, dif_pos i.isLt]
    simp [fitsI64_iff.mpr hfits]

theorem Weighs.disableDir (h : Weighs index w cur enabled router) (i : Fin n) :
    Weighs index w cur (Function.update enabled i false) (router.disableDir i) := by
  unfold CacheDirRouter.disableDir
  refine ⟨?_, h.exact⟩
  dsimp only
  rw [h.weights]
  apply List.ext_getElem?
  intro k
  rw [List.getElem?_modify, List.getElem?_ofFn, List.getElem?_ofFn]
  by_cases hk : k < n
  · rw [dif_pos hk, dif_pos hk]
    by_cases hik : i.val = k
    · subst hik
      simp
    · have hne : (⟨k, hk⟩ : Fin n) ≠ i := by
        rintro rfl
        exact hik rfl
      simp [hik, hne]
  · rw [dif_neg hk, dif_neg hk]
    rfl

/-! ## Bounds -/

/-- The current weights after gains of `gained` bytes altogether. -/
structure Balanced (w cur : Fin n → Int) (gained : Int) : Prop where
  nonneg : ∀ i, 0 ≤ w i
  spread : Spread w cur
  sum : ∑ i, cur i = ∑ i, w i + gained

section Balanced

variable {gained : Int} {i : Fin n} {cur' : Fin n → Int}

theorem Balanced.bounds (h : Balanced w cur gained) (i : Fin n) :
    -((n - 1) * ∑ j, w j) ≤ cur i ∧ cur i ≤ n * ∑ j, w j + gained ∧ w i ≤ ∑ j, w j := by
  obtain ⟨hlow, hhigh⟩ := h.spread.bounds i
  rw [Fintype.card_fin] at hlow hhigh
  rw [h.sum] at hhigh
  refine ⟨hlow, ?_, weight_le_sum h.nonneg i⟩
  linarith

theorem Balanced.round (h : Balanced w cur gained) {E : Finset (Fin n)}
    (hround : Round w cur E i cur') : Balanced w cur' gained :=
  ⟨h.nonneg, hround.spread h.nonneg h.spread, hround.sum.trans h.sum⟩

theorem Balanced.gain (h : Balanced w cur gained) (i : Fin n) {b : Int} (hb : 0 ≤ b) :
    Balanced w (Function.update cur i (cur i + b)) (gained + b) := by
  refine ⟨h.nonneg, h.spread.mono fun j => ?_, ?_⟩
  · by_cases hij : j = i
    · subst hij
      rw [Function.update_self]
      omega
    · rw [Function.update_of_ne hij]
  · have hsplit := Finset.add_sum_erase Finset.univ cur (Finset.mem_univ i)
    rw [Finset.sum_update_of_mem (Finset.mem_univ i), Finset.sdiff_singleton_eq_erase]
    have hsum := h.sum
    omega

end Balanced

/-- The router of `n` directories whose quotas have the sum `quotas`, after gains of `gained`
bytes; no sum has overflowed. -/
def Bounded (n : Nat) (quotas gained : Int) (router : CacheDirRouter) : Prop :=
  ∃ (index : Fin n → Nat) (w cur : Fin n → Int) (enabled : Fin n → Bool),
    ∑ i, w i = quotas ∧ Weighs index w cur enabled router ∧ Balanced w cur gained

variable {quotas gained : Int}

theorem Bounded.length (h : Bounded n quotas gained router) : router.dirWeights.length = n := by
  obtain ⟨_, _, _, _, _, hweighs, _⟩ := h
  rw [hweighs.weights, List.length_ofFn]

theorem Bounded.exact (h : Bounded n quotas gained router) : router.overflowed = false := by
  obtain ⟨_, _, _, _, _, hweighs, _⟩ := h
  exact hweighs.exact

/-- No sum of `next_dir_index` overflows. -/
theorem Bounded.nextDirIndex (h : Bounded n quotas gained router) (hgained : 0 ≤ gained)
    (hfits : (n + 1) * quotas + gained < 2 ^ 63) :
    Bounded n quotas gained router.nextDirIndex.2 := by
  obtain ⟨index, w, cur, enabled, rfl, hweighs, hbal⟩ := h
  have hsum : 0 ≤ ∑ j, w j := Finset.sum_nonneg fun j _ => hbal.nonneg j
  have hscaled : 0 ≤ (n : Int) * ∑ j, w j := mul_nonneg (Int.natCast_nonneg n) hsum
  rw [add_mul, one_mul] at hfits
  have hrange : ∀ cur' : Fin n → Int, Balanced w cur' gained → ∀ i, i64 (cur' i) = cur' i := by
    intro cur' hbal' i
    obtain ⟨hlow, hhigh, _⟩ := hbal'.bounds i
    rw [sub_mul, one_mul] at hlow
    exact i64_eq (by omega) (by omega)
  have hraised : ∀ i, enabled i = true → i64 (cur i + w i) = cur i + w i := by
    intro i _
    obtain ⟨hlow, hhigh, hself⟩ := hbal.bounds i
    have hnonneg := hbal.nonneg i
    rw [sub_mul, one_mul] at hlow
    exact i64_eq (by omega) (by omega)
  rcases hweighs.nextDirIndex hbal.nonneg (by omega) hraised
      (fun i cur' hround => hrange cur' (hbal.round hround) i) with
    ⟨_, _, hweighs'⟩ | ⟨i, cur', _, hround, hweighs'⟩
  · exact ⟨index, w, cur, enabled, rfl, hweighs', hbal⟩
  · exact ⟨index, w, cur', enabled, rfl, hweighs', hbal.round hround⟩

/-- Disabling a directory leaves the weights alone. -/
theorem Bounded.disableDir (h : Bounded n quotas gained router) {i : Nat} (hi : i < n) :
    Bounded n quotas gained (router.disableDir i) := by
  obtain ⟨index, w, cur, enabled, hquotas, hweighs, hbal⟩ := h
  exact ⟨index, w, cur, _, hquotas, hweighs.disableDir ⟨i, hi⟩, hbal⟩

/-- The sum of `add_dir_weight` does not overflow. -/
theorem Bounded.addDirWeight (h : Bounded n quotas gained router) {i : Nat} (hi : i < n) {b : Int}
    (hb : 0 ≤ b) (hgained : 0 ≤ gained) (hfits : (n + 1) * quotas + (gained + b) < 2 ^ 63) :
    Bounded n quotas (gained + b) (router.addDirWeight i b) := by
  obtain ⟨index, w, cur, enabled, rfl, hweighs, hbal⟩ := h
  have hsum : 0 ≤ ∑ j, w j := Finset.sum_nonneg fun j _ => hbal.nonneg j
  have hscaled : 0 ≤ (n : Int) * ∑ j, w j := mul_nonneg (Int.natCast_nonneg n) hsum
  obtain ⟨hlow, hhigh, _⟩ := hbal.bounds ⟨i, hi⟩
  rw [sub_mul, one_mul] at hlow
  rw [add_mul, one_mul] at hfits
  refine ⟨index, w, _, _, rfl, hweighs.addDirWeight ⟨i, hi⟩ ?_, hbal.gain ⟨i, hi⟩ hb⟩
  exact i64_eq (by omega) (by omega)

/-! ## The start -/

/-- The router after `add_dir` of each directory. -/
def added (dirs : List CacheDir) : CacheDirRouter := dirs.foldl addDir {}

/-- The weight of each directory. -/
def quota (dirs : List CacheDir) (i : Fin dirs.length) : Int := dirs[i].quotaBytes

/-- The sum of all quotas. -/
def total (dirs : List CacheDir) : Int := (dirs.map fun dir => (dir.quotaBytes : Int)).sum

section Added

variable (dirs : List CacheDir)

theorem total_eq : total dirs = ∑ i, quota dirs i := by
  unfold total quota
  exact (Fin.sum_univ_fun_getElem dirs fun dir => (dir.quotaBytes : Int)).symm

theorem quota_nonneg (i : Fin dirs.length) : 0 ≤ quota dirs i := Int.natCast_nonneg _

theorem added_weights (router : CacheDirRouter) :
    (dirs.foldl addDir router).dirWeights = router.dirWeights ++
      dirs.map (fun dir => ⟨dir.index, i64 dir.quotaBytes, i64 dir.quotaBytes, true⟩) ∧
    (dirs.foldl addDir router).overflowed = router.overflowed := by
  induction dirs generalizing router with
  | nil => simp
  | cons dir rest ih =>
      obtain ⟨hweights, hexact⟩ := ih (router.addDir dir)
      rw [List.foldl_cons, hweights, hexact, addDir]
      simp

theorem added_weighs (hfits : total dirs < 2 ^ 63) :
    Weighs (fun i : Fin dirs.length => (dirs.get i).index) (quota dirs) (quota dirs) (fun _ => true) (added dirs) := by
  obtain ⟨hweights, hexact⟩ := added_weights dirs {}
  refine ⟨?_, hexact⟩
  unfold added
  rw [hweights, List.nil_append, ← List.ofFn_getElem_eq_map]
  congr 1
  funext i
  have hle := weight_le_sum (quota_nonneg dirs) i
  have hnonneg := quota_nonneg dirs i
  rw [← total_eq] at hle
  have hquota : i64 (quota dirs i) = quota dirs i := i64_eq (by omega) (by omega)
  unfold quota at hquota ⊢
  exact congrArg₂ (fun a b => (⟨dirs[i].index, a, b, true⟩ : DirWeight)) hquota hquota

theorem added_bounded (hfits : total dirs < 2 ^ 63) :
    Bounded dirs.length (total dirs) 0 (added dirs) := by
  refine ⟨_, _, _, _, (total_eq dirs).symm, added_weighs dirs hfits, quota_nonneg dirs,
    spread_of_nonneg (quota_nonneg dirs) (quota_nonneg dirs), ?_⟩
  rw [add_zero]

end Added

end CacheDirRouter

end StarCache
