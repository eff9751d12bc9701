import Mathlib.Algebra.Order.Ring.Nat

/-!
# Smearing the highest bit of a word

`x |= x >> 1; x |= x >> 2; x |= x >> 4; ...` copies each bit of a word into the
bits below it. After a round every bit stands for a window of the word it
started from, and the next round may shift by up to the length of the window.
The shift is the arithmetic one, so a negative word fills up with its sign.
-/

namespace Ccbase.Lib.BitSmear

variable {w : Nat}

/-- Bit `j` of the word, with the sign continued above the top bit. -/
def bit (x : BitVec w) (j : Nat) : Bool := x.getLsbD (min j (w - 1))

theorem bit_of_lt (x : BitVec w) {j : Nat} (hj : j < w) : bit x j = x.getLsbD j := by
  rw [bit, Nat.min_eq_left (by omega)]

theorem bit_of_ge (x : BitVec w) {j : Nat} (hj : w ≤ j) : bit x j = x.msb := by
  rw [bit, Nat.min_eq_right (by omega), BitVec.msb_eq_getLsbD_last]

theorem bit_sshiftRight (x : BitVec w) (k : Nat) {i : Nat} (hi : i < w) :
    (x.sshiftRight k).getLsbD i = bit x (k + i) := by
  rw [BitVec.getLsbD_sshiftRight]
  have hni : ¬ w ≤ i := by omega
  by_cases h : k + i < w
  · simp [hni, h, bit_of_lt x h]
  · simp [hni, h, bit_of_ge x (show w ≤ k + i by omega)]

/-- One round. -/
def smear (k : Nat) (x : BitVec w) : BitVec w := x ||| x.sshiftRight k

/-- Each bit of `y` says whether `x` has a bit in the window of length `n` above
it. -/
def Smeared (x : BitVec w) (n : Nat) (y : BitVec w) : Prop :=
  ∀ i, i < w → (y.getLsbD i = true ↔ ∃ j, i ≤ j ∧ j < i + n ∧ bit x j = true)

theorem Smeared.refl (x : BitVec w) : Smeared x 1 x := by
  intro i hi
  constructor
  · intro h
    exact ⟨i, Nat.le_refl i, by omega, by rw [bit_of_lt x hi, h]⟩
  · rintro ⟨j, hij, hj, h⟩
    obtain rfl : j = i := by omega
    rwa [bit_of_lt x hi] at h

/-- The window of the sign bit reaches over the end of the word. -/
theorem Smeared.bit_iff {x y : BitVec w} {n : Nat} (h : Smeared x n y) (hn : 0 < n) (hw : 0 < w)
    (i : Nat) : bit y i = true ↔ ∃ j, i ≤ j ∧ j < i + n ∧ bit x j = true := by
  by_cases hi : i < w
  · rw [bit_of_lt y hi]
    exact h i hi
  · rw [bit, Nat.min_eq_right (by omega), h (w - 1) (by omega)]
    have hsign : ∀ j, w - 1 ≤ j → bit x j = bit x i := by
      intro j hj
      rw [bit, bit, Nat.min_eq_right hj, Nat.min_eq_right (by omega)]
    constructor
    · rintro ⟨j, hj, -, hb⟩
      exact ⟨i, Nat.le_refl i, by omega, by rw [← hsign j hj, hb]⟩
    · rintro ⟨j, hj, -, hb⟩
      refine ⟨w - 1, Nat.le_refl _, by omega, ?_⟩
      rw [hsign (w - 1) (Nat.le_refl _), ← hsign j (by omega), hb]

theorem Smeared.smear {x y : BitVec w} {n k : Nat} (h : Smeared x n y) (hn : 0 < n)
    (hk : k ≤ n) : Smeared x (n + k) (smear k y) := by
  intro i hi
  rw [BitSmear.smear, BitVec.getLsbD_or, bit_sshiftRight y k hi, Bool.or_eq_true, h i hi,
    h.bit_iff hn (by omega)]
  constructor
  · rintro (⟨j, h₁, h₂, hb⟩ | ⟨j, h₁, h₂, hb⟩)
    · exact ⟨j, h₁, by omega, hb⟩
    · exact ⟨j, by omega, by omega, hb⟩
  · rintro ⟨j, h₁, h₂, hb⟩
    by_cases hj : j < i + n
    · exact Or.inl ⟨j, h₁, hj, hb⟩
    · exact Or.inr ⟨j, by omega, by omega, hb⟩

/-! ## A window as long as the word -/

theorem Smeared.eq_allOnes {x y : BitVec w} {n : Nat} (h : Smeared x n y) (hn : w ≤ n)
    (hx : x.msb = true) : y = BitVec.allOnes w := by
  apply BitVec.eq_of_getLsbD_eq
  intro i hi
  have hb : bit x (w - 1) = true := by
    rw [bit, Nat.min_self, ← BitVec.msb_eq_getLsbD_last, hx]
  have hy : y.getLsbD i = true := (h i hi).2 ⟨w - 1, by omega, by omega, hb⟩
  rw [hy, BitVec.getLsbD_allOnes, decide_eq_true hi]

theorem Smeared.eq_zero {y : BitVec w} {n : Nat} (h : Smeared 0 n y) : y = 0 := by
  apply BitVec.eq_of_getLsbD_eq
  intro i hi
  have hz : ¬ y.getLsbD i = true := by
    rw [h i hi]
    rintro ⟨j, -, -, hb⟩
    simp [bit] at hb
  simpa using hz

/-- Every bit up to the highest one of `x` is set. -/
theorem Smeared.toNat_eq {x y : BitVec w} {n : Nat} (h : Smeared x n y) (hn : w ≤ n)
    (hpos : x.msb = false) (hx : x.toNat ≠ 0) : y.toNat = 2 ^ (x.toNat.log2 + 1) - 1 := by
  have hlog : x.toNat.log2 < w := (Nat.log2_lt hx).2 x.isLt
  apply Nat.eq_of_testBit_eq
  intro i
  rw [Nat.testBit_two_pow_sub_one, ← BitVec.getLsbD]
  by_cases hi : i < w
  · by_cases hle : i < x.toNat.log2 + 1
    · have hb : bit x x.toNat.log2 = true := by
        rw [bit_of_lt x hlog, BitVec.getLsbD, Nat.testBit_log2 hx]
      rw [(h i hi).2 ⟨x.toNat.log2, by omega, by omega, hb⟩, decide_eq_true hle]
    · have hz : ¬ y.getLsbD i = true := by
        rw [h i hi]
        rintro ⟨j, hij, -, hb⟩
        by_cases hj : j < w
        · rw [bit_of_lt x hj, BitVec.getLsbD] at hb
          have hge := Nat.ge_two_pow_of_testBit hb
          have hlt := (Nat.log2_lt (k := j) hx).1 (by omega)
          omega
        · rw [bit_of_ge x (by omega), hpos] at hb
          cases hb
      rw [decide_eq_false hle]
      simpa using hz
  · rw [BitVec.getLsbD_of_ge y i (by omega), decide_eq_false (by omega)]

end Ccbase.Lib.BitSmear
