import Mathlib.Algebra.BigOperators.Fin
import Mathlib.Tactic.Abel

/-!
# Sums of which few terms change

A finite family has one term for each owner. An owner gives its term up, or passes it on to another
one.
-/

namespace Ccbase.Lib

variable {ι M : Type} [Fintype ι] [DecidableEq ι] [AddCommMonoid M]

/-- Two families that agree except at `i` have the same rest. -/
theorem exists_rest (F F' : ι → M) {i : ι} (hF : ∀ j, j ≠ i → F' j = F j) :
    ∃ rest : M, ∑ j, F j = F i + rest ∧ ∑ j, F' j = F' i + rest := by
  refine ⟨_, (Finset.add_sum_erase Finset.univ F (Finset.mem_univ i)).symm, ?_⟩
  rw [← Finset.add_sum_erase Finset.univ F' (Finset.mem_univ i)]
  congr 1
  exact Finset.sum_congr rfl fun j hj => hF j (Finset.ne_of_mem_erase hj)

theorem sum_of_zero_at (F F' : ι → M) {i : ι} (hF : ∀ j, j ≠ i → F' j = F j) (hi : F' i = 0) :
    ∑ j, F j = ∑ j, F' j + F i := by
  obtain ⟨rest, hsum, hsum'⟩ := exists_rest F F' hF
  rw [hsum, hsum', hi, zero_add, add_comm]

/-- The term of `i` and a new one come to that of `j`. -/
theorem sum_of_moved (F F' : ι → M) (c : M) {i j : ι} (hij : j ≠ i)
    (hF : ∀ k, k ≠ i → k ≠ j → F' k = F k) (hi : F' i = 0) (hj : F' j = F j + (c + F i)) :
    ∑ k, F' k = ∑ k, F k + c := by
  -- between the two families, the term of `i` is gone and that of `j` is the old one
  have hdrop := sum_of_zero_at F (Function.update F i 0)
    (fun k hk => Function.update_of_ne hk ..) (Function.update_self ..)
  obtain ⟨rest, hsum, hsum'⟩ := exists_rest (Function.update F i 0) F' (i := j) (by
    intro k hk
    by_cases hki : k = i
    · rw [hki, Function.update_self, hi]
    · rw [Function.update_of_ne hki, hF k hki hk])
  rw [Function.update_of_ne hij] at hsum
  rw [hdrop, hsum, hsum', hj]
  abel

/-- What `i` gives away goes from the sum to `b`, and what comes in goes from `a` to the sum. -/
theorem sum_balance {M : Type} [AddCancelCommMonoid M] {F F' : ι → M} {a a' b b' : M} {i : ι}
    (h : a = b + ∑ j, F j) (hF : ∀ j, j ≠ i → F' j = F j)
    (hi : a' + (b + F i) = a + (b' + F' i)) : a' = b' + ∑ j, F' j := by
  obtain ⟨rest, hsum, hsum'⟩ := exists_rest F F' hF
  rw [h, hsum] at hi
  rw [hsum']
  refine add_right_cancel (b := b + F i) ?_
  rw [hi]
  abel

/-- A member of a list of numbers is less than one more than their sum. -/
theorem lt_foldr_add {l : List Nat} {a : Nat} (h : a ∈ l) : a < l.foldr (fun a b => a + b) 1 := by
  have hpos : ∀ l : List Nat, 0 < l.foldr (fun a b => a + b) 1 := by
    intro l
    induction l with
    | nil => exact Nat.one_pos
    | cons b l ih => exact Nat.add_pos_right b ih
  induction l with
  | nil => cases h
  | cons b l ih =>
      show a < b + l.foldr (fun a b => a + b) 1
      rcases List.mem_cons.mp h with rfl | h
      · exact Nat.lt_add_of_pos_right (hpos l)
      · exact Nat.lt_of_lt_of_le (ih h) (Nat.le_add_left _ b)

end Ccbase.Lib
