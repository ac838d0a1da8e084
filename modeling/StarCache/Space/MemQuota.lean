import StarCache.Space.MemSpaceManager
import Mathlib.Algebra.BigOperators.Group.List.Basic

/-!
# The memory quota over whole runs

Memory moves between the used, the private and the public bytes; the first two
together never exceed the quota, whatever `needBytes` has grown to.
-/

namespace StarCache

open MachineInt

namespace MemSpaceManager

/-- Runs of the manager. `grants` are the sizes that have been granted and not returned;
a size that is returned is one of them. -/
inductive Run (flags : Flags) : MemSpaceManager → List Nat → Prop
  | init : Run flags {} []
  | addCacheZone {mgr : MemSpaceManager} {grants : List Nat} (size : Nat) :
      Run flags mgr grants → (mgr.quotaBytes + size) * 100 < 18446744073709551616 →
        Run flags (mgr.addCacheZone size) grants
  | incMem {mgr : MemSpaceManager} {grants : List Nat} (size : Nat) (urgent : Bool) :
      Run flags mgr grants → mgr.usedBytes + size < 18446744073709551616 →
        Run flags (mgr.incMem flags size urgent).2
          (if (mgr.incMem flags size urgent).1 then size :: grants else grants)
  | decMem {mgr : MemSpaceManager} {grants : List Nat} {size : Nat} :
      Run flags mgr grants → size ∈ grants → Run flags (mgr.decMem size) (grants.erase size)

/-- What a request does to the used and the private bytes, as exact numbers. -/
structure Moved (size : Nat) (granted : Bool) (mgr mgr' : MemSpaceManager) : Prop where
  used : mgr'.usedBytes = if granted then mgr.usedBytes + size else mgr.usedBytes
  privateQuota : mgr'.privateQuotaBytes = mgr.privateQuotaBytes ∨
    granted = true ∧ mgr'.privateQuotaBytes + size = mgr.privateQuotaBytes

/-- What a return does to them. -/
structure Returned (size : Nat) (mgr mgr' : MemSpaceManager) : Prop where
  used : mgr'.usedBytes + size = mgr.usedBytes
  grows : mgr.privateQuotaBytes ≤ mgr'.privateQuotaBytes
  privateQuota : mgr'.privateQuotaBytes ≤ mgr.privateQuotaBytes + size

/-- The used bytes are the grants, and fit the quota together with the private bytes. -/
structure Bounded (mgr : MemSpaceManager) (grants : List Nat) : Prop where
  used : mgr.usedBytes = grants.sum
  fits : mgr.usedBytes + mgr.privateQuotaBytes ≤ mgr.quotaBytes
  quota : mgr.quotaBytes * 100 < 18446744073709551616

section Step

variable {flags : Flags} {mgr : MemSpaceManager} {grants : List Nat}

theorem Bounded.incMem (h : mgr.Bounded grants) (hthreshold : flags.allocMemThreshold ≤ 100)
    {size : Nat} (hfit : mgr.usedBytes + size < 18446744073709551616) (urgent : Bool) :
    Moved size (mgr.incMem flags size urgent).1 mgr (mgr.incMem flags size urgent).2 ∧
      ((mgr.incMem flags size urgent).1 = true →
        (mgr.incMem flags size urgent).2.usedBytes +
          (mgr.incMem flags size urgent).2.privateQuotaBytes ≤ mgr.quotaBytes) := by
  have hfits := h.fits
  have hquota := h.quota
  have hused : u64 ((mgr.usedBytes : Int) + size) = mgr.usedBytes + size := by
    rw [show (mgr.usedBytes : Int) + size = (mgr.usedBytes + size : Nat) by push_cast; rfl]
    exact u64_of_lt hfit
  have hpublic : u64 ((mgr.quotaBytes : Int) - mgr.privateQuotaBytes) =
      mgr.quotaBytes - mgr.privateQuotaBytes := by
    rw [show (mgr.quotaBytes : Int) - mgr.privateQuotaBytes =
      (mgr.quotaBytes - mgr.privateQuotaBytes : Nat) by omega]
    exact u64_of_lt (by omega)
  -- the threshold is part of the public quota
  have hproduct : (mgr.quotaBytes - mgr.privateQuotaBytes) * flags.allocMemThreshold ≤
      (mgr.quotaBytes - mgr.privateQuotaBytes) * 100 := Nat.mul_le_mul_left _ hthreshold
  have hupper : u64 (((mgr.quotaBytes - mgr.privateQuotaBytes : Nat) : Int) *
      flags.allocMemThreshold) / 100 ≤ mgr.quotaBytes - mgr.privateQuotaBytes := by
    rw [show ((mgr.quotaBytes - mgr.privateQuotaBytes : Nat) : Int) * flags.allocMemThreshold =
      ((mgr.quotaBytes - mgr.privateQuotaBytes) * flags.allocMemThreshold : Nat) by push_cast; rfl,
      u64_of_lt (by omega)]
    omega
  unfold MemSpaceManager.incMem
  split
  next hprivate =>
    refine ⟨⟨hused, Or.inr ⟨rfl, ?_⟩⟩, fun _ => ?_⟩
    · dsimp only
      omega
    · dsimp only
      rw [hused]
      omega
  next =>
    dsimp only
    rw [hused, hpublic]
    split
    next hgrant =>
      refine ⟨⟨rfl, Or.inl rfl⟩, fun _ => ?_⟩
      dsimp only
      omega
    next => exact ⟨⟨rfl, Or.inl rfl⟩, nofun⟩

theorem Bounded.decMem (h : mgr.Bounded grants) {size : Nat} (hsize : size ∈ grants) :
    Returned size mgr (mgr.decMem size) ∧
      (mgr.decMem size).usedBytes + (mgr.decMem size).privateQuotaBytes ≤ mgr.quotaBytes := by
  have hfits := h.fits
  have hquota := h.quota
  have hle : size ≤ mgr.usedBytes := by
    rw [h.used, ← List.sum_erase hsize]
    exact Nat.le_add_right _ _
  have hused : u64 ((mgr.usedBytes : Int) - size) = mgr.usedBytes - size := by
    rw [show (mgr.usedBytes : Int) - size = (mgr.usedBytes - size : Nat) by omega]
    exact u64_of_lt (by omega)
  unfold MemSpaceManager.decMem
  split
  next =>
    have hprivate : u64 ((mgr.privateQuotaBytes : Int) + size) = mgr.privateQuotaBytes + size := by
      rw [show (mgr.privateQuotaBytes : Int) + size = (mgr.privateQuotaBytes + size : Nat) by
        push_cast; rfl]
      exact u64_of_lt (by omega)
    dsimp only
    rw [hused, hprivate]
    refine ⟨⟨Nat.sub_add_cancel hle, Nat.le_add_right _ _, Nat.le_refl _⟩, ?_⟩
    omega
  next hneed =>
    -- the private bytes grow by the demand, which is less than the grant
    have hprivate : u64 ((mgr.privateQuotaBytes : Int) + mgr.needBytes) =
        mgr.privateQuotaBytes + u64 mgr.needBytes := by
      unfold u64 at hneed ⊢
      omega
    dsimp only
    rw [hused, hprivate]
    have hlt : u64 mgr.needBytes < size := Nat.not_le.mp hneed
    refine ⟨⟨Nat.sub_add_cancel hle, Nat.le_add_right _ _,
      Nat.add_le_add_left (Nat.le_of_lt hlt) _⟩, ?_⟩
    omega

theorem Run.bounded (hthreshold : flags.allocMemThreshold ≤ 100) (h : Run flags mgr grants) :
    mgr.Bounded grants := by
  induction h with
  | init => exact ⟨rfl, Nat.le_refl _, by decide⟩
  | @addCacheZone mgr grants size _ hfit ih =>
      have hfits := ih.fits
      have hquota : (mgr.addCacheZone size).quotaBytes = mgr.quotaBytes + size := by
        unfold MemSpaceManager.addCacheZone
        dsimp only
        rw [show (mgr.quotaBytes : Int) + size = (mgr.quotaBytes + size : Nat) by push_cast; rfl]
        exact u64_of_lt (by omega)
      refine ⟨ih.used, ?_, ?_⟩
      · rw [hquota]
        exact Nat.le_trans hfits (Nat.le_add_right _ _)
      · rw [hquota]
        exact hfit
  | @incMem mgr grants size urgent _ hfit ih =>
      obtain ⟨hmoved, hbound⟩ := ih.incMem hthreshold hfit urgent
      have hused := hmoved.used
      have hprivate := hmoved.privateQuota
      refine ⟨?_, ?_, ?_⟩
      · rw [hused, ih.used]
        split
        · rw [List.sum_cons, Nat.add_comm]
        · rfl
      · rw [incMem_quota]
        cases hgrant : (mgr.incMem flags size urgent).1 with
        | true => exact hbound hgrant
        | false =>
            rw [hgrant] at hused hprivate
            have hfits := ih.fits
            have hsame := hprivate.resolve_right fun h => Bool.false_ne_true h.1
            rw [hused, hsame]
            exact hfits
      · rw [incMem_quota]
        exact ih.quota
  | decMem _ hsize ih =>
      obtain ⟨hreturned, hbound⟩ := ih.decMem hsize
      have hused := hreturned.used
      have hsum := List.sum_erase hsize
      refine ⟨?_, ?_, ?_⟩
      · rw [ih.used] at hused
        omega
      · rw [decMem_quota]
        exact hbound
      · rw [decMem_quota]
        exact ih.quota

end Step

/-- The used bytes are exactly the outstanding grants and, with the private bytes, stay within
the quota; no request and no return wraps a counter. -/
theorem used_within_quota {flags : Flags} (hthreshold : flags.allocMemThreshold ≤ 100)
    {mgr : MemSpaceManager} {grants : List Nat} (h : Run flags mgr grants) :
    mgr.usedBytes = grants.sum ∧ mgr.usedBytes + mgr.privateQuotaBytes ≤ mgr.quotaBytes ∧
      (∀ size urgent, mgr.usedBytes + size < 18446744073709551616 →
        Moved size (mgr.incMem flags size urgent).1 mgr (mgr.incMem flags size urgent).2) ∧
      ∀ size ∈ grants, Returned size mgr (mgr.decMem size) :=
  ⟨(h.bounded hthreshold).used, (h.bounded hthreshold).fits,
    fun _ urgent hfit => ((h.bounded hthreshold).incMem hthreshold hfit urgent).1,
    fun _ hsize => ((h.bounded hthreshold).decMem hsize).1⟩

/-- A grant, a request that fails, and the return of the grant to the private area. -/
theorem used_within_quota_run :
    ∃ mgr grants, Run .default mgr grants ∧ mgr.usedBytes = grants.sum ∧ grants.sum = 0 ∧
      mgr.privateQuotaBytes = 50 ∧ mgr.usedBytes + mgr.privateQuotaBytes ≤ mgr.quotaBytes := by
  have hzone : Run .default _ [] := .addCacheZone 100 .init (by decide)
  have hgranted := Run.incMem 50 false hzone (by decide)
  have hdenied := Run.incMem 60 false hgranted (by decide +kernel)
  have hreturned := @Run.decMem _ _ _ 50 hdenied (by decide +kernel)
  have hbound := used_within_quota (by decide) hreturned
  exact ⟨_, _, hreturned, hbound.1, by decide +kernel, by decide +kernel, hbound.2.1⟩

end MemSpaceManager

end StarCache
