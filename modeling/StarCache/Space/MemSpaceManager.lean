import StarCache.Common.Config
import StarCache.Foundation.MachineInt

/-!
# Memory accounting

`MemSpaceManager` counts granted bytes against the quota. Failed requests raise
`needBytes`, and returned bytes then move to the private area that only urgent
requests may use. All counters are 64-bit.
-/

namespace StarCache

open MachineInt

structure MemSpaceManager where
  quotaBytes : Nat := 0
  usedBytes : Nat := 0
  privateQuotaBytes : Nat := 0
  needBytes : Int := 0

namespace MemSpaceManager

def addCacheZone (mgr : MemSpaceManager) (size : Nat) : MemSpaceManager :=
  { mgr with quotaBytes := u64 (mgr.quotaBytes + size) }

def incMem (flags : Flags) (mgr : MemSpaceManager) (size : Nat) (urgent : Bool) :
    Bool × MemSpaceManager :=
  if urgent = true ∧ size ≤ mgr.privateQuotaBytes then
    (true, { mgr with
      privateQuotaBytes := mgr.privateQuotaBytes - size
      usedBytes := u64 (mgr.usedBytes + size) })
  else
    let publicQuotaBytes := u64 (mgr.quotaBytes - mgr.privateQuotaBytes)
    let upperThreshold := u64 (publicQuotaBytes * flags.allocMemThreshold) / 100
    if u64 (mgr.usedBytes + size) < upperThreshold then
      (true, { mgr with usedBytes := u64 (mgr.usedBytes + size) })
    else
      (false, { mgr with needBytes := i64 (mgr.needBytes + size) })

def decMem (mgr : MemSpaceManager) (size : Nat) : MemSpaceManager :=
  -- `_need_bytes` is signed and is compared with a `size_t`
  if size ≤ u64 mgr.needBytes then
    { mgr with
      privateQuotaBytes := u64 (mgr.privateQuotaBytes + size)
      needBytes := i64 (mgr.needBytes - size)
      usedBytes := u64 (mgr.usedBytes - size) }
  else
    { mgr with
      privateQuotaBytes := u64 (mgr.privateQuotaBytes + mgr.needBytes)
      needBytes := 0
      usedBytes := u64 (mgr.usedBytes - size) }

theorem incMem_quota {flags : Flags} {mgr : MemSpaceManager} (size : Nat) (urgent : Bool) :
    (mgr.incMem flags size urgent).2.quotaBytes = mgr.quotaBytes := by
  unfold incMem
  split
  next => rfl
  next =>
    dsimp only
    split <;> rfl

theorem decMem_quota {mgr : MemSpaceManager} (size : Nat) :
    (mgr.decMem size).quotaBytes = mgr.quotaBytes := by
  unfold decMem
  split <;> rfl

theorem decMem_list_quota (sizes : List Nat) (mgr : MemSpaceManager) :
    (sizes.foldl decMem mgr).quotaBytes = mgr.quotaBytes := by
  induction sizes generalizing mgr with
  | nil => rfl
  | cons size rest ih =>
      rw [List.foldl_cons, ih, decMem_quota]

/-- The used bytes are the sum `total` of the outstanding grants, as a `size_t`. -/
def Accounts (mgr : MemSpaceManager) (total : Nat) : Prop :=
  mgr.usedBytes = total % 18446744073709551616

theorem incMem_granted {flags : Flags} {mgr : MemSpaceManager} {size total : Nat} {urgent : Bool}
    (h : mgr.Accounts total) (hgrant : (mgr.incMem flags size urgent).1 = true) :
    (mgr.incMem flags size urgent).2.Accounts (size + total) := by
  have hused : u64 (mgr.usedBytes + size) = (size + total) % 18446744073709551616 := by
    rw [h]
    unfold u64
    omega
  unfold incMem at hgrant ⊢
  split
  next => exact hused
  next hprivate =>
    rw [if_neg hprivate] at hgrant
    dsimp only at hgrant ⊢
    split
    next => exact hused
    next hpublic => simp [hpublic] at hgrant

theorem incMem_denied {flags : Flags} {mgr : MemSpaceManager} {size total : Nat} {urgent : Bool}
    (h : mgr.Accounts total) (hdeny : (mgr.incMem flags size urgent).1 = false) :
    (mgr.incMem flags size urgent).2.Accounts total := by
  unfold incMem at hdeny ⊢
  split
  next hprivate => simp [hprivate] at hdeny
  next hprivate =>
    rw [if_neg hprivate] at hdeny
    dsimp only at hdeny ⊢
    split
    next hpublic => simp [hpublic] at hdeny
    next => exact h

/-- Returning an outstanding grant takes it out of the sum. -/
theorem decMem_accounts {mgr : MemSpaceManager} {size total : Nat}
    (h : mgr.Accounts (size + total)) : (mgr.decMem size).Accounts total := by
  have hused : u64 (mgr.usedBytes - size) = total % 18446744073709551616 := by
    rw [h]
    unfold u64
    omega
  unfold decMem
  split
  next => exact hused
  next => exact hused

theorem decMem_list_accounts {sizes : List Nat} {total : Nat} :
    ∀ {mgr : MemSpaceManager}, mgr.Accounts (sizes.sum + total) →
      (sizes.foldl decMem mgr).Accounts total := by
  induction sizes with
  | nil =>
      intro mgr h
      simpa using h
  | cons size rest ih =>
      intro mgr h
      rw [List.foldl_cons]
      apply ih
      apply decMem_accounts
      rwa [List.sum_cons, Nat.add_assoc] at h

end MemSpaceManager

end StarCache
