import Mathlib.Algebra.Order.Ring.Nat
import Mathlib.Algebra.BigOperators.Group.List.Basic

/-!
# Chunks of a transfer

A transfer is asked for piece by piece: a call wants what is left of the current
piece, and what it moves is a chunk of at most that length, zero for a call that
moves nothing. `Fragments pieces chunks` says that the chunks can be the answers
to such calls and that they move all of the pieces.
-/

namespace Ccbase.Lib

/-- The chunks move the pieces, one after the other, and no chunk goes past the
end of a piece. -/
def Fragments : List Nat → List Nat → Prop
  | pieces, [] => pieces.sum = 0
  | [], n :: ns => n = 0 ∧ Fragments [] ns
  | l :: ls, n :: ns => n ≤ l ∧ Fragments (if n = l then ls else (l - n) :: ls) ns

/-- The pieces that are left when `n` has been moved. -/
def leftOf : Nat → List Nat → List Nat
  | _, [] => []
  | n, l :: ls => if n < l then (l - n) :: ls else leftOf (n - l) ls

theorem leftOf_lt {n l : Nat} (ls : List Nat) (h : n < l) : leftOf n (l :: ls) = (l - n) :: ls := by
  rw [leftOf, if_pos h]

theorem leftOf_add (l n : Nat) (ls : List Nat) : leftOf (l + n) (l :: ls) = leftOf n ls := by
  rw [leftOf, if_neg (by omega), Nat.add_sub_cancel_left]

theorem leftOf_self (l : Nat) (ls : List Nat) : leftOf l (l :: ls) = leftOf 0 ls :=
  leftOf_add l 0 ls

theorem leftOf_zero {pieces : List Nat} (hpos : ∀ l ∈ pieces, 0 < l) :
    leftOf 0 pieces = pieces := by
  cases pieces with
  | nil => rfl
  | cons l ls => rw [leftOf_lt ls (hpos l (List.mem_cons_self ..)), Nat.sub_zero]

theorem leftOf_leftOf (n m : Nat) : ∀ pieces : List Nat,
    leftOf m (leftOf n pieces) = leftOf (n + m) pieces := by
  intro pieces
  induction pieces generalizing n with
  | nil => rfl
  | cons l ls ih =>
      by_cases hlt : n < l
      · rw [leftOf_lt ls hlt]
        by_cases hlt' : n + m < l
        · rw [leftOf_lt ls (show m < l - n by omega), leftOf_lt ls hlt', Nat.sub_sub]
        · rw [leftOf, if_neg (by omega), leftOf, if_neg hlt', show m - (l - n) = n + m - l by omega]
      · rw [leftOf, if_neg hlt, ih, leftOf, if_neg (by omega), show n - l + m = n + m - l by omega]

theorem leftOf_pos {n : Nat} : ∀ {pieces : List Nat}, (∀ l ∈ pieces, 0 < l) →
    ∀ l ∈ leftOf n pieces, 0 < l := by
  intro pieces
  induction pieces generalizing n with
  | nil =>
      intro _ l hl
      cases hl
  | cons l ls ih =>
      intro hpos x hx
      have hls : ∀ y ∈ ls, 0 < y := fun y hy => hpos y (List.mem_cons_of_mem l hy)
      by_cases hlt : n < l
      · rw [leftOf_lt ls hlt, List.mem_cons] at hx
        rcases hx with rfl | hx
        · omega
        · exact hls x hx
      · rw [leftOf, if_neg hlt] at hx
        exact ih hls x hx

namespace Fragments

theorem sum_eq : ∀ {ns pieces : List Nat}, Fragments pieces ns → ns.sum = pieces.sum := by
  intro ns
  induction ns with
  | nil =>
      intro pieces h
      rw [Fragments] at h
      exact h.symm
  | cons n ns ih =>
      intro pieces h
      cases pieces with
      | nil => rw [List.sum_cons, h.1, Nat.zero_add, ih h.2]
      | cons l ls =>
          obtain ⟨hle, h⟩ := h
          rw [List.sum_cons, List.sum_cons, ih h]
          split
          · omega
          · rw [List.sum_cons]
            omega

theorem nil_of_sum {ns : List Nat} (h : ns.sum = 0) : Fragments [] ns := by
  induction ns with
  | nil => rfl
  | cons n ns ih =>
      rw [List.sum_cons] at h
      exact ⟨by omega, ih (by omega)⟩

/-- In one piece any chunks are right that add up. -/
theorem of_sum : ∀ {ns : List Nat} {l : Nat}, ns.sum = l → Fragments [l] ns := by
  intro ns
  induction ns with
  | nil =>
      intro l h
      rw [Fragments, List.sum_singleton, ← h, List.sum_nil]
  | cons n ns ih =>
      intro l h
      rw [List.sum_cons] at h
      refine ⟨by omega, ?_⟩
      by_cases hall : n = l
      · rw [if_pos hall]
        exact nil_of_sum (by omega)
      · rw [if_neg hall]
        exact ih (by omega)

/-- The chunks that come later. -/
theorem drop : ∀ {used rest pieces : List Nat}, (∀ l ∈ pieces, 0 < l) →
    Fragments pieces (used ++ rest) → Fragments (leftOf used.sum pieces) rest := by
  intro used
  induction used with
  | nil =>
      intro rest pieces hpos h
      rwa [List.sum_nil, leftOf_zero hpos]
  | cons n used ih =>
      intro rest pieces hpos h
      cases pieces with
      | nil => exact ih hpos h.2
      | cons l ls =>
          obtain ⟨hle, h⟩ := h
          have hls : ∀ x ∈ ls, 0 < x := fun x hx => hpos x (List.mem_cons_of_mem l hx)
          have hnext : (if n = l then ls else (l - n) :: ls) = leftOf n (l :: ls) := by
            by_cases heq : n = l
            · rw [if_pos heq, heq, leftOf_self, leftOf_zero hls]
            · rw [if_neg heq, leftOf_lt ls (by omega)]
          rw [hnext] at h
          rw [List.sum_cons, ← leftOf_leftOf]
          exact ih (leftOf_pos hpos) h

end Fragments

end Ccbase.Lib
