import StarCache.State
import Mathlib.Algebra.Order.Ring.Rat

/-!
# Policies

`AdmissionPolicy` and `PromotionPolicy` are interfaces: what an implementation
decides may depend on the whole state and on the draw of the moment. The two
implementations `init` installs follow.
-/

namespace StarCache

open MachineInt

structure AdmissionPolicy where
  checkAdmission : Nat → State → CacheItem → BlockKey → BlockAdmission

structure PromotionPolicy where
  /-- `none` is a division by zero. -/
  checkWrite : Nat → State → CacheItem → BlockKey → Option WriteOptions → Option BlockLocation
  checkPromote : Nat → State → CacheItem → BlockKey → Option ReadOptions → Bool

/-- Reads with these options promote nothing. -/
def PromotionPolicy.Refuses (policy : PromotionPolicy) (options : Option ReadOptions) : Prop :=
  ∀ n s item key, policy.checkPromote n s item key options = false

/-- `std::minstd_rand::max()`. -/
def randGeneratorMax : Nat := 2147483646

/-- The exact rationals stand for the doubles. -/
def sizeBasedAdmissionPolicy (flags : Flags) : AdmissionPolicy where
  checkAdmission _ _ item _ :=
    if flags.admissionMaxCheckSize ≤ item.size then .flush
    else
      let sizeRatio : Rat := item.size / flags.admissionMaxCheckSize
      -- a comma expression: the draw is discarded
      let probability : Rat := randGeneratorMax
      if probability < sizeRatio * flags.admissionFlushProbability then .flush
      else if probability < sizeRatio * flags.admissionDeleteProbability then .delete
      else .skip

def capacityBasedPromotionPolicy (flags : Flags) (env : Env) : PromotionPolicy where
  checkWrite _ s _ _ options :=
    if options.any (·.mode == .writeThrough) then some .disk
    else if s.diskSpace.quotaBytes = 0 then some .mem
    else if s.memSpace.quotaBytes = 0 then none
    else
      let usedRate := u64 (s.memSpace.usedBytes * 100) / s.memSpace.quotaBytes
      if usedRate < flags.promotionMemThreshold then some .mem else some .disk
  checkPromote n _ _ _ options :=
    if options.any (·.mode == .readThrough) then false
    else decide (env.fastRandLessThan n 100 < flags.promotionProbalility)

structure Runtime extends Platform where
  admissionPolicy : AdmissionPolicy
  promotionPolicy : PromotionPolicy

/-- The runtime `init` sets up. -/
def Runtime.standard (pf : Platform) : Runtime where
  toPlatform := pf
  admissionPolicy := sizeBasedAdmissionPolicy pf.flags
  promotionPolicy := capacityBasedPromotionPolicy pf.flags pf.env

/-- The standard policies on a simple platform. -/
def Runtime.simple (flags : Flags) (env : Env) : Runtime := .standard (.simple flags env)

end StarCache
