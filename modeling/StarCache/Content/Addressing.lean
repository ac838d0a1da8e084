import StarCache.Content.Slices

/-!
# Addressing the bytes of an object

The helpers that turn an offset into a block or a slice and back have 32-bit
results. They are right as long as the last slice of the object ends within the
first 2^32 bytes, and no longer.
-/

namespace StarCache

open MachineInt

variable {flags : Flags}

/-- The last slice of an object of `n` bytes ends within the first 2^32 bytes. -/
def Addressable (flags : Flags) (n : Nat) : Prop :=
  ((n - 1) / flags.sliceSize + 1) * flags.sliceSize ≤ 4294967296

instance (flags : Flags) (n : Nat) : Decidable (Addressable flags n) :=
  inferInstanceAs (Decidable (_ ≤ _))

theorem div_mul_bounds (n : Nat) {m : Nat} (hm : 0 < m) :
    n / m * m ≤ n ∧ n < (n / m + 1) * m := by
  refine ⟨Nat.div_mul_le_self n m, ?_⟩
  rw [Nat.mul_comm]
  exact Nat.lt_mul_div_succ n hm

theorem Addressable.of_le {n : Nat} (hgeo : Geometry flags) (hn : n ≤ 2147483648) :
    Addressable flags n := by
  have hslice := hgeo.slice_le
  have hblock := hgeo.block_le
  have hlow := (div_mul_bounds (n - 1) flags.sliceSize_pos).1
  unfold Addressable
  rw [Nat.succ_mul]
  omega

/-- The slice of every byte ends in range. -/
theorem Addressable.slice {n p : Nat} (h : Addressable flags n) (hp : p < n) :
    (p / flags.sliceSize + 1) * flags.sliceSize ≤ 4294967296 := by
  unfold Addressable at h
  have hdiv : p / flags.sliceSize ≤ (n - 1) / flags.sliceSize :=
    Nat.div_le_div_right (by omega)
  exact Nat.le_trans (Nat.mul_le_mul_right _ (Nat.succ_le_succ hdiv)) h

theorem Addressable.le {n : Nat} (h : Addressable flags n) : n ≤ 4294967296 := by
  have hhigh := (div_mul_bounds (n - 1) flags.sliceSize_pos).2
  unfold Addressable at h
  omega

/-! ## The helpers -/

theorem u32_off2block {p : Nat} (hp : p < 4294967296) :
    u32 (off2block flags p) = p / flags.blockSize := by
  unfold off2block
  rw [u64_of_lt (by omega), u32_i32]
  exact u32_of_lt (Nat.lt_of_le_of_lt (Nat.div_le_self _ _) hp)

theorem blockLower_natCast {i : Nat} (hi : i * flags.blockSize < 4294967296) :
    blockLower flags i = i * flags.blockSize := by
  unfold blockLower
  exact_mod_cast u32_of_lt hi

theorem sliceLower_off2slice {p : Nat} (hp : p < 18446744073709551616) :
    sliceLower flags (off2slice flags p) = u32 (p / flags.sliceSize * flags.sliceSize : Nat) := by
  unfold sliceLower off2slice
  rw [u64_of_lt hp]
  have h := u32_add_i32_mul 0 (p / flags.sliceSize : Nat) flags.sliceSize
  rw [Int.zero_add, Int.zero_add] at h
  rw [h]
  push_cast
  rfl

theorem sliceUpper_off2slice {p : Nat} (hp : p < 18446744073709551616) :
    sliceUpper flags (off2slice flags p) =
      u32 ((p / flags.sliceSize + 1) * flags.sliceSize - 1 : Nat) := by
  have hpos := Nat.mul_pos (Nat.succ_pos (p / flags.sliceSize)) flags.sliceSize_pos
  unfold sliceUpper off2slice
  rw [u64_of_lt hp]
  have h := u32_add_i32_mul ((flags.sliceSize : Int) - 1) (p / flags.sliceSize : Nat)
    flags.sliceSize
  rw [show (i32 (p / flags.sliceSize : Nat) + 1) * (flags.sliceSize : Int) - 1 =
    (flags.sliceSize : Int) - 1 + i32 (p / flags.sliceSize : Nat) * flags.sliceSize by ring, h,
    Int.ofNat_sub hpos]
  congr 1
  push_cast
  ring

theorem blockLower_off2block {p : Nat} (hp : p < 18446744073709551616) :
    blockLower flags (off2block flags p) = u32 (p / flags.blockSize * flags.blockSize : Nat) := by
  unfold blockLower off2block
  rw [u64_of_lt hp]
  have h := u32_add_i32_mul 0 (p / flags.blockSize : Nat) flags.blockSize
  rw [Int.zero_add, Int.zero_add] at h
  rw [h]
  push_cast
  rfl

/-- The offset lies where the helpers put its slice and its block. -/
def Addressed (flags : Flags) (o : Nat) : Prop :=
  sliceLower flags (off2slice flags o) ≤ o ∧ o ≤ sliceUpper flags (off2slice flags o) ∧
    blockLower flags (off2block flags o) ≤ o

instance (flags : Flags) (o : Nat) : Decidable (Addressed flags o) :=
  inferInstanceAs (Decidable (_ ∧ _))

/-- Every byte of an object of `n` bytes is addressed correctly if the object is addressable;
else its last byte is not. -/
theorem addressed_iff (hslice : flags.sliceSize ≤ 4294967296) {n : Nat} (hpos : 0 < n) :
    (∀ o < n, o < 9223372036854775808 → Addressed flags o) ↔ Addressable flags n := by
  have hbelow : ∀ x : Nat, u32 x ≤ x := fun x => by
    rw [u32_natCast]
    exact Nat.mod_le _ _
  constructor
  · intro hall
    by_cases hn : n ≤ 9223372036854775808
    · obtain ⟨_, hupper, _⟩ := hall (n - 1) (by omega) (by omega)
      obtain ⟨hlow, hhigh⟩ := div_mul_bounds (n - 1) flags.sliceSize_pos
      rw [sliceUpper_off2slice (by omega), u32_natCast] at hupper
      unfold Addressable
      rw [Nat.succ_mul] at hupper hhigh ⊢
      omega
    · obtain ⟨_, hupper, _⟩ := hall 9223372036854775807 (by omega) (by omega)
      have hlt : sliceUpper flags (off2slice flags (9223372036854775807 : Nat)) < 4294967296 := by
        rw [sliceUpper_off2slice (by omega), u32_natCast]
        exact Nat.mod_lt _ (by omega)
      omega
  · intro h o ho _
    have hslice' := h.slice ho
    obtain ⟨hlow, hhigh⟩ := div_mul_bounds o flags.sliceSize_pos
    have hlow' := (div_mul_bounds o flags.blockSize_pos).1
    refine ⟨?_, ?_, ?_⟩
    · rw [sliceLower_off2slice (by omega)]
      exact Nat.le_trans (hbelow _) hlow
    · rw [sliceUpper_off2slice (by omega), u32_of_lt (by omega)]
      omega
    · rw [blockLower_off2block (by omega)]
      exact Nat.le_trans (hbelow _) hlow'

end StarCache
