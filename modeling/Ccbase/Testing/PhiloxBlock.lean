import Ccbase.Testing.Philox

/-!
# The blocks of a `Philox`

A round of `compute` can be undone: its multipliers are odd, so the low half of a
product gives the factor back, the factor gives the high half, and what was
combined with the high half by xor comes out of it again. So `next` maps the
counters one to one to the blocks, and as the counter runs through all its values
before one returns, so do the blocks.
-/

namespace Ccbase.Testing

namespace Counter

/-! ## One round -/

/-- The inverse of `kMagic0` modulo `2 ^ 32`. -/
def kMagic0Inv : UInt32 := 0x991A7CDB

/-- The inverse of `kMagic1` modulo `2 ^ 32`. -/
def kMagic1Inv : UInt32 := 0x6D7CAE67

theorem kMagic0Inv_mul (x : UInt32) : kMagic0Inv * (kMagic0 * x) = x := by
  rw [← UInt32.mul_assoc, show kMagic0Inv * kMagic0 = 1 by decide, UInt32.one_mul]

theorem kMagic1Inv_mul (x : UInt32) : kMagic1Inv * (kMagic1 * x) = x := by
  rw [← UInt32.mul_assoc, show kMagic1Inv * kMagic1 = 1 by decide, UInt32.one_mul]

theorem mul_kMagic0Inv (x : UInt32) : kMagic0 * (kMagic0Inv * x) = x := by
  rw [← UInt32.mul_assoc, show kMagic0 * kMagic0Inv = 1 by decide, UInt32.one_mul]

theorem mul_kMagic1Inv (x : UInt32) : kMagic1 * (kMagic1Inv * x) = x := by
  rw [← UInt32.mul_assoc, show kMagic1 * kMagic1Inv = 1 by decide, UInt32.one_mul]

/-- The high half of a product. -/
def mulHigh (m x : UInt32) : UInt32 := ((m.toUInt64 * x.toUInt64) >>> 32).toUInt32

/-- The low half of the product in 64 bits is the product in 32 bits. -/
theorem mulLow (m x : UInt32) : (m.toUInt64 * x.toUInt64).toUInt32 = m * x := by
  rw [UInt64.toUInt32_mul, UInt32.toUInt32_toUInt64, UInt32.toUInt32_toUInt64]

theorem compute_eq (c : Counter) (k : Key) :
    c.compute k = ⟨mulHigh kMagic1 c.c2 ^^^ c.c1 ^^^ k.k0, kMagic1 * c.c2,
      mulHigh kMagic0 c.c0 ^^^ c.c3 ^^^ k.k1, kMagic0 * c.c0⟩ := by
  rw [← mulLow, ← mulLow]
  rfl

/-- The round backwards. -/
def uncompute (c : Counter) (k : Key) : Counter :=
  let c0 := kMagic0Inv * c.c3
  let c2 := kMagic1Inv * c.c1
  ⟨c0, mulHigh kMagic1 c2 ^^^ c.c0 ^^^ k.k0, c2, mulHigh kMagic0 c0 ^^^ c.c2 ^^^ k.k1⟩

/-- A word that is combined twice with the same two words. -/
theorem xor_xor_cancel (h x k : UInt32) : h ^^^ (h ^^^ x ^^^ k) ^^^ k = x := by
  rw [UInt32.xor_assoc h x k, ← UInt32.xor_assoc h h, UInt32.xor_self, UInt32.zero_xor,
    UInt32.xor_assoc, UInt32.xor_self, UInt32.xor_zero]

theorem uncompute_compute (c : Counter) (k : Key) : (c.compute k).uncompute k = c := by
  rw [compute_eq]
  simp only [uncompute, kMagic0Inv_mul, kMagic1Inv_mul, xor_xor_cancel]

theorem compute_uncompute (c : Counter) (k : Key) : (c.uncompute k).compute k = c := by
  rw [compute_eq]
  simp only [uncompute, mul_kMagic0Inv, mul_kMagic1Inv, xor_xor_cancel]

theorem compute_bijective (k : Key) : Function.Bijective (fun c : Counter => c.compute k) :=
  Function.bijective_iff_has_inverse.mpr
    ⟨fun c => c.uncompute k, fun c => uncompute_compute c k, fun c => compute_uncompute c k⟩

end Counter

namespace Philox

theorem rounds_bijective (n : Nat) : ∀ k : Key, Function.Bijective (rounds n k) := by
  induction n with
  | zero => exact fun _ => Function.bijective_id
  | succ n ih =>
      intro k
      cases n with
      | zero => exact Counter.compute_bijective k
      | succ n => exact (ih k.raise).comp (Counter.compute_bijective k)

theorem block_bijective (k : Key) : Function.Bijective (block k) := rounds_bijective 10 k

/-! ## The calls of `next` -/

/-- The generator after `n` calls of `next`. -/
def afterNext (n : Nat) (g : Philox) : Philox := (fun g => g.next.2)^[n] g

theorem afterNext_eq (n : Nat) (g : Philox) :
    g.afterNext n = { g with counter := Counter.skipOne^[n] g.counter } := by
  induction n with
  | zero => rfl
  | succ n ih =>
      rw [afterNext, Function.iterate_succ_apply', ← afterNext, ih, Function.iterate_succ_apply']
      rfl

theorem next_afterNext (n : Nat) (g : Philox) :
    (g.afterNext n).next.1 = block g.key (Counter.skipOne^[n] g.counter) := by
  rw [afterNext_eq]
  rfl

/-- The counter does not return within `2 ^ 128` steps. -/
theorem iterate_skipOne_ne (c : Counter) {i j : Nat} (hij : i < j) (hj : j < i + 2 ^ 128) :
    Counter.skipOne^[i] c ≠ Counter.skipOne^[j] c := by
  intro h
  have hvalue := congrArg Counter.value h
  rw [Counter.value_iterate_skipOne, Counter.value_iterate_skipOne] at hvalue
  have hlt := c.value_lt
  omega

theorem next_afterNext_ne (g : Philox) {i j : Nat} (hij : i < j) (hj : j < i + 2 ^ 128) :
    (g.afterNext i).next.1 ≠ (g.afterNext j).next.1 := by
  intro h
  rw [next_afterNext, next_afterNext] at h
  exact iterate_skipOne_ne g.counter hij hj ((block_bijective g.key).injective h)

/-- `next` is one to one from counters to blocks, its step is plus one, and among
`2 ^ 128` calls in a row no two return the same block. -/
theorem next_one_to_one (g : Philox) :
    Function.Bijective (fun c : Counter => ({ g with counter := c } : Philox).next.1) ∧
      (∀ c : Counter, c.skipOne.value = (c.value + 1) % 2 ^ 128) ∧
      ∀ i j : Nat, i < j → j < i + 2 ^ 128 →
        (g.afterNext i).next.1 ≠ (g.afterNext j).next.1 :=
  ⟨block_bijective g.key, Counter.value_skipOne, fun _ _ => next_afterNext_ne g⟩

end Philox

end Ccbase.Testing
