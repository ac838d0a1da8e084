import StarCache.Space.MemSpaceManager
import Mathlib.Algebra.BigOperators.Group.List.Basic

/-!
# The private area of an empty memory

Only a request that fits into the private area as a whole is granted from there, and
only the other bytes count for the public threshold. What is left in the private area
when all grants are back is therefore lost to larger requests.
-/

namespace StarCache

open MachineInt

namespace MemSpaceManager

/-- Requests and returns in any order. `grants` are the sizes that have been granted and
not returned, and what is returned is one of them. -/
inductive Calls (flags : Flags) (quota : Nat) : MemSpaceManager → List Nat → Prop
  | start : quota < 18446744073709551616 → Calls flags quota { quotaBytes := quota } []
  | incMem {mgr : MemSpaceManager} {grants : List Nat} (size : Nat) (urgent : Bool) :
      Calls flags quota mgr grants → size < 18446744073709551616 →
        Calls flags quota (mgr.incMem flags size urgent).2
          (if (mgr.incMem flags size urgent).1 then size :: grants else grants)
  | decMem {mgr : MemSpaceManager} {grants : List Nat} {size : Nat} :
      Calls flags quota mgr grants → size ∈ grants →
        Calls flags quota (mgr.decMem size) (grants.erase size)

/-- What the public area of an empty memory grants is below this. -/
def publicThreshold (flags : Flags) (quota privateBytes : Nat) : Nat :=
  u64 (u64 ((quota : Int) - privateBytes) * flags.allocMemThreshold) / 100

section Empty

variable {flags : Flags} {quota : Nat} {mgr : MemSpaceManager} {grants : List Nat}

theorem Calls.quota_eq (h : Calls flags quota mgr grants) : mgr.quotaBytes = quota := by
  induction h with
  | start => rfl
  | incMem size urgent _ _ ih => rw [incMem_quota, ih]
  | decMem _ _ ih => rw [decMem_quota, ih]

theorem Calls.accounts (h : Calls flags quota mgr grants) : mgr.Accounts grants.sum := by
  induction h with
  | start => rfl
  | @incMem mgr grants size urgent _ _ ih =>
      cases hgrant : (mgr.incMem flags size urgent).1 with
      | true =>
          rw [if_pos rfl, List.sum_cons]
          exact incMem_granted ih hgrant
      | false =>
          rw [if_neg Bool.false_ne_true]
          exact incMem_denied ih hgrant
  | decMem _ hsize ih =>
      apply decMem_accounts
      rwa [List.sum_erase hsize]

/-- What an empty memory grants. -/
theorem incMem_empty (hused : mgr.usedBytes = 0) (hquota : mgr.quotaBytes = quota) {size : Nat}
    (hsize : size < 18446744073709551616) (urgent : Bool) :
    (mgr.incMem flags size urgent).1 = true ↔ urgent = true ∧ size ≤ mgr.privateQuotaBytes ∨
      size < publicThreshold flags quota mgr.privateQuotaBytes := by
  have hsum : u64 ((mgr.usedBytes : Int) + size) = size := by
    rw [hused, show ((0 : Nat) : Int) + size = (size : Nat) by simp]
    exact u64_of_lt hsize
  unfold incMem
  split
  next hprivate => simp [hprivate]
  next hprivate =>
    simp only [hsum, hprivate, false_or, hquota]
    rw [← publicThreshold]
    split
    next hpublic => simp [hpublic]
    next hpublic => simp [hpublic]

/-- What a new manager grants is granted again if and only if the private area has not lowered
the threshold, or can itself serve every such request. -/
theorem released_capacity (h : Calls flags quota mgr []) :
    (∀ size < 18446744073709551616, ∀ urgent,
      (({ quotaBytes := quota } : MemSpaceManager).incMem flags size urgent).1 = true →
        (mgr.incMem flags size true).1 = true) ↔
      publicThreshold flags quota 0 ≤ publicThreshold flags quota mgr.privateQuotaBytes ∨
        publicThreshold flags quota 0 ≤ mgr.privateQuotaBytes + 1 := by
  have hused : mgr.usedBytes = 0 := h.accounts
  have hgrants := fun size hsize => @incMem_empty flags quota mgr hused h.quota_eq size hsize true
  have hfresh := @incMem_empty flags quota { quotaBytes := quota } rfl rfl
  have hlt : publicThreshold flags quota 0 < 18446744073709551616 := by
    have := u64_lt (u64 ((quota : Int) - (0 : Nat)) * flags.allocMemThreshold)
    unfold publicThreshold
    omega
  constructor
  · intro hall
    -- the greatest request that the public area granted when the private one was empty
    by_contra hnot
    rw [not_or, Nat.not_le, Nat.not_le] at hnot
    have hsize := Nat.sub_lt (Nat.zero_lt_of_lt hnot.1) Nat.one_pos
    have hgrant := hall _ (hsize.trans hlt) true ((hfresh (hsize.trans hlt) true).mpr (.inr hsize))
    cases (hgrants _ (hsize.trans hlt)).mp hgrant with
    | inl hprivate => omega
    | inr hpublic => omega
  · intro hroom size hsize urgent hgrant
    rw [hgrants size hsize]
    cases (hfresh hsize urgent).mp hgrant with
    | inl hprivate => exact .inl ⟨rfl, hprivate.2.trans (Nat.zero_le _)⟩
    | inr hpublic =>
        cases hroom with
        | inl hsame => exact .inr (hpublic.trans_le hsame)
        | inr hlarge => exact .inl ⟨rfl, Nat.le_of_lt_succ (hpublic.trans_le hlarge)⟩

/-- Nothing is set aside when no request has failed. -/
theorem released_capacity_unused :
    (((({ quotaBytes := 100 } : MemSpaceManager).incMem .default 50 false).2.decMem 50).incMem
      .default 60 true).1 = true := by
  have hgranted := Calls.incMem 50 false (@Calls.start .default 100 (by decide)) (by decide)
  rw [if_pos (by decide +kernel)] at hgranted
  have hreturned := hgranted.decMem (List.mem_singleton_self 50)
  rw [List.erase_cons_head] at hreturned
  apply (released_capacity hreturned).mpr (by decide +kernel) 60 (by decide) true
  decide +kernel

/-- A request that is not granted leaves the used and the private bytes alone. -/
theorem incMem_denied_same {size : Nat} {urgent : Bool}
    (hdeny : (mgr.incMem flags size urgent).1 = false) :
    ∃ needBytes, (mgr.incMem flags size urgent).2 = { mgr with needBytes } := by
  unfold incMem at hdeny ⊢
  split
  next hprivate => simp [hprivate] at hdeny
  next hprivate =>
    rw [if_neg hprivate] at hdeny
    dsimp only at hdeny ⊢
    split
    next hpublic => simp [hpublic] at hdeny
    next => exact ⟨_, rfl⟩

theorem incMem_needBytes (needBytes : Int) (size : Nat) (urgent : Bool) :
    (({ mgr with needBytes } : MemSpaceManager).incMem flags size urgent).1 =
      (mgr.incMem flags size urgent).1 := by
  unfold incMem
  dsimp only
  split
  next => rfl
  next => split <;> rfl

/-- The same request, again and again, and never granted. -/
theorem incMem_denied_forever {size : Nat} {urgent : Bool} (n : Nat)
    (hdeny : (mgr.incMem flags size urgent).1 = false) :
    (((fun m : MemSpaceManager => (m.incMem flags size urgent).2)^[n] mgr).incMem flags size
      urgent).1 = false := by
  induction n generalizing mgr with
  | zero => exact hdeny
  | succ n ih =>
      rw [Function.iterate_succ_apply]
      apply ih
      obtain ⟨needBytes, hsame⟩ := incMem_denied_same hdeny
      rw [hsame, incMem_needBytes]
      exact hdeny

/-- A quota of 100, half of which is set aside for a request of 60. The memory is empty again,
and the request fails as often as it is made. -/
theorem released_capacity_stranded : ∃ mgr, Calls .default 100 mgr [] ∧
    (({ quotaBytes := 100 } : MemSpaceManager).incMem .default 60 true).1 = true ∧
    ∀ n, (((fun m : MemSpaceManager => (m.incMem .default 60 true).2)^[n] mgr).incMem .default 60
      true).1 = false := by
  have hgranted := Calls.incMem 50 false (@Calls.start .default 100 (by decide)) (by decide)
  rw [if_pos (by decide +kernel)] at hgranted
  have hdenied := hgranted.incMem 60 true (by decide)
  rw [if_neg (by decide +kernel)] at hdenied
  have hreturned := hdenied.decMem (List.mem_singleton_self 50)
  rw [List.erase_cons_head] at hreturned
  exact ⟨_, hreturned, by decide +kernel, fun n => incMem_denied_forever n (by decide +kernel)⟩

end Empty

end MemSpaceManager

end StarCache
