import Ccbase.Memory.Pool

/-!
# The size of a new block

A request is rounded up to a multiple of 512, and the unit size is doubled until it
reaches the result. Both are done in `size_t`: the rounding of a request among the
last 511 gives `0`, and a unit size that is shifted out of its 64 bits before it
reaches the request stays `0` for ever.
-/

namespace Ccbase.Memory

open Ccbase.Lib

variable {size unit free n : Nat}

/-- The multiple of 512 that a request needs. -/
def neededSize (size : Nat) : Nat := (max size 1 + 511) / 512 * 512

theorem alignMemorySize_eq (h : size + 512 ≤ sizeBound) :
    alignMemorySize size = neededSize size := by
  have hk : kDynamicMemAlignSize = 512 := rfl
  have hM : sizeBound = 18446744073709551616 := rfl
  unfold alignMemorySize neededSize
  split
  · subst_vars
    rfl
  · rename_i hpos
    rw [hk]
    rcases Nat.lt_or_ge (size + 512) sizeBound with hlt | hge
    · rw [addSize_eq hlt, subSize_eq hlt (by omega), mulSize_eq (by rw [hM] at *; omega)]
      congr 2
      omega
    · have hsize : size = 18446744073709551104 := by omega
      subst hsize
      decide

/-- The rounding wraps around. -/
theorem alignMemorySize_wraps (h : sizeBound < size + 512) (hsize : size < sizeBound) :
    alignMemorySize size = 0 := by
  have hk : kDynamicMemAlignSize = 512 := rfl
  have hM : sizeBound = 18446744073709551616 := rfl
  have hadd : addSize size 512 = size + 512 - sizeBound := by
    rw [addSize, hM]
    rw [hM] at h hsize
    omega
  have hsmall : size + 512 - sizeBound - 1 < 512 := by omega
  unfold alignMemorySize
  rw [if_neg (by rw [hM] at h; omega), hk, hadd, subSize_eq (by omega) (by omega),
    Nat.div_eq_of_lt hsmall]
  rfl

/-- The unit size after `k` doublings. -/
def doubled (unit k : Nat) : Nat := unit * 2 ^ k % sizeBound

theorem doubled_zero (hunit : unit < sizeBound) : doubled unit 0 = unit := by
  rw [doubled, pow_zero, Nat.mul_one, Nat.mod_eq_of_lt hunit]

theorem doubled_succ (unit k : Nat) : doubled (mulSize unit 2) k = doubled unit (k + 1) := by
  rw [doubled, doubled, mulSize, Nat.mod_mul_mod, Nat.mul_assoc, pow_succ, Nat.mul_comm 2]

/-- All bits are shifted out in the end. -/
theorem doubled_eq_zero {k : Nat} (hk : 64 ≤ k) : doubled unit k = 0 := by
  obtain ⟨j, rfl⟩ := Nat.exists_eq_add_of_le hk
  rw [doubled, pow_add, sizeBound, ← Nat.mul_assoc, Nat.mul_right_comm, Nat.mul_mod_left]

/-- The loop ends at the first doubling that reaches the size. -/
theorem growAllocSize_some {fuel : Nat} (hunit : unit < sizeBound)
    (h : growAllocSize size fuel unit = some n) : size ≤ n ∧ n < sizeBound := by
  induction fuel generalizing unit with
  | zero => cases h
  | succ fuel ih =>
      unfold growAllocSize at h
      split at h
      · exact ih (Nat.mod_lt _ (by decide)) h
      · cases h
        exact ⟨by omega, hunit⟩

theorem growAllocSize_isSome_iff {fuel : Nat} (hunit : unit < sizeBound) :
    (growAllocSize size fuel unit).isSome ↔ ∃ k < fuel, size ≤ doubled unit k := by
  induction fuel generalizing unit with
  | zero =>
      constructor
      · nofun
      · rintro ⟨k, hk, -⟩
        omega
  | succ fuel ih =>
      unfold growAllocSize
      split
      · rename_i hlt
        rw [ih (show mulSize unit 2 < sizeBound from Nat.mod_lt _ (by decide))]
        constructor
        · rintro ⟨k, hk, hle⟩
          exact ⟨k + 1, by omega, doubled_succ unit k ▸ hle⟩
        · rintro ⟨k, hk, hle⟩
          cases k with
          | zero =>
              rw [doubled_zero hunit] at hle
              omega
          | succ k => exact ⟨k, by omega, (doubled_succ unit k).symm ▸ hle⟩
      · rename_i hge
        refine ⟨fun _ => ⟨0, Nat.succ_pos _, ?_⟩, fun _ => rfl⟩
        rw [doubled_zero hunit]
        omega

/-- A unit size that gets there does so within 64 doublings. -/
theorem growAllocSize_ends_iff (hunit : unit < sizeBound) :
    (growAllocSize size 65 unit).isSome ↔ ∃ k, size ≤ doubled unit k := by
  rw [growAllocSize_isSome_iff hunit]
  constructor
  · rintro ⟨k, -, hle⟩
    exact ⟨k, hle⟩
  · rintro ⟨k, hle⟩
    rcases Nat.lt_or_ge k 65 with hk | hk
    · exact ⟨k, hk, hle⟩
    · rw [doubled_eq_zero (by omega)] at hle
      exact ⟨0, by omega, by omega⟩

/-- The 65 rounds of the model are enough: a loop that has not ended then never ends. -/
theorem growAllocSize_never_ends (hunit : unit < sizeBound)
    (h : growAllocSize size 65 unit = none) (fuel : Nat) : growAllocSize size fuel unit = none := by
  by_contra hne
  have hsome : (growAllocSize size fuel unit).isSome := Option.isSome_iff_ne_none.mpr hne
  obtain ⟨k, -, hle⟩ := (growAllocSize_isSome_iff hunit).mp hsome
  have hends := (growAllocSize_ends_iff hunit).mpr ⟨k, hle⟩
  rw [h] at hends
  cases hends

/-- `AlignMemorySize` and `CalMemBlockAllocSize` give what callers expect of them. -/
structure BlockSizeOk (free unit size : Nat) : Prop where
  aligned : size ≤ alignMemorySize size
  ends : ∃ r, calMemBlockAllocSize free unit (alignMemorySize size) = some r ∧
    (r = 0 ↔ free < alignMemorySize size) ∧
    (alignMemorySize size ≤ free → alignMemorySize size ≤ r ∧ r ≤ free)

/-- The request is not among the last 511, and the unit size reaches it if there is enough
memory. -/
theorem blockSizeOk_iff (hsize : size < sizeBound) (hunit : unit < sizeBound) :
    BlockSizeOk free unit size ↔ size + 512 ≤ sizeBound ∧
      (free < neededSize size ∨ ∃ k, neededSize size ≤ unit * 2 ^ k % sizeBound) := by
  rcases Nat.lt_or_ge sizeBound (size + 512) with hwrap | hfits
  · constructor
    · intro h
      have := h.aligned
      rw [alignMemorySize_wraps hwrap hsize] at this
      rw [sizeBound] at *
      omega
    · rintro ⟨hle, -⟩
      omega
  have hneed := alignMemorySize_eq hfits
  have hpos : size ≤ neededSize size ∧ 0 < neededSize size := by
    unfold neededSize
    omega
  by_cases hfree : free < neededSize size
  · refine iff_of_true ⟨by rw [hneed]; exact hpos.1, 0, ?_, by rw [hneed]; simpa using hfree, ?_⟩
      ⟨hfits, .inl hfree⟩
    · rw [calMemBlockAllocSize, hneed, if_pos hfree]
    · rw [hneed]
      omega
  have hcal : calMemBlockAllocSize free unit (alignMemorySize size) =
      (growAllocSize (neededSize size) 65 unit).map fun n => min n free := by
    rw [calMemBlockAllocSize, hneed, if_neg hfree]
  constructor
  · intro h
    obtain ⟨r, hr, -⟩ := h.ends
    rw [hcal] at hr
    obtain ⟨m, hm, -⟩ := Option.map_eq_some_iff.mp hr
    exact ⟨hfits, .inr ((growAllocSize_ends_iff hunit).mp (by rw [hm]; rfl))⟩
  · rintro ⟨-, hlt | hreach⟩
    · exact absurd hlt hfree
    · obtain ⟨m, hm⟩ := Option.isSome_iff_exists.mp ((growAllocSize_ends_iff hunit).mpr hreach)
      have hle := (growAllocSize_some hunit hm).1
      refine ⟨by rw [hneed]; exact hpos.1, min m free, by rw [hcal, hm]; rfl, ?_, ?_⟩
      · rw [hneed]
        omega
      · rw [hneed]
        omega

/-- The unit size of the pool is doubled twice. -/
theorem blockSizeOk_three_units :
    BlockSizeOk (2 ^ 40) kDynamicMemAllocUnitSize (3 * kDynamicMemAllocUnitSize) := by
  refine (blockSizeOk_iff (by decide) (by decide)).mpr ⟨by decide, .inr ⟨2, by decide⟩⟩

/-- More than half of the address space is never reached by doubling one byte. -/
theorem doubling_never_ends :
    ¬BlockSizeOk (2 ^ 64 - 1) 1 (2 ^ 63 + 1) := by
  intro h
  obtain ⟨r, hr, -⟩ := h.ends
  revert hr
  have hnone : calMemBlockAllocSize (2 ^ 64 - 1) 1 (alignMemorySize (2 ^ 63 + 1)) = none := by
    decide +kernel
  rw [hnone]
  nofun

end Ccbase.Memory
