import Mathlib.Data.List.Basic
import Mathlib.Tactic.Common
import Mathlib.Algebra.Order.Ring.Nat

/-!
# Pieces that tile a range

A list of pieces, each with an address and a length, tiles `[a, z)` if the first
piece starts at `a`, each next one where the one before ends, and the last one
ends at `z`. No piece is empty, so pieces are told apart by their addresses.
-/

namespace Ccbase.Lib

variable {α : Type} {addr size : α → Nat}

def Tiles (addr size : α → Nat) : Nat → List α → Nat → Prop
  | a, [], z => a = z
  | a, x :: xs, z => addr x = a ∧ 0 < size x ∧ Tiles addr size (a + size x) xs z

namespace Tiles

theorem append_iff {xs ys : List α} : ∀ {a z : Nat},
    Tiles addr size a (xs ++ ys) z ↔
      ∃ m, Tiles addr size a xs m ∧ Tiles addr size m ys z := by
  induction xs with
  | nil =>
      intro a z
      constructor
      · intro h
        exact ⟨a, rfl, h⟩
      · rintro ⟨m, rfl, h⟩
        exact h
  | cons x xs ih =>
      intro a z
      simp only [List.cons_append, Tiles, ih]
      constructor
      · rintro ⟨ha, hpos, m, hxs, hys⟩
        exact ⟨m, ⟨ha, hpos, hxs⟩, hys⟩
      · rintro ⟨m, ⟨ha, hpos, hxs⟩, hys⟩
        exact ⟨ha, hpos, m, hxs, hys⟩

/-- The pieces before and behind one of them. -/
theorem middle {xs ys : List α} {x : α} {a z : Nat}
    (h : Tiles addr size a (xs ++ x :: ys) z) :
    Tiles addr size a xs (addr x) ∧ 0 < size x ∧
      Tiles addr size (addr x + size x) ys z := by
  obtain ⟨m, hxs, rfl, hpos, hys⟩ := append_iff.mp h
  exact ⟨hxs, hpos, hys⟩

theorem le {xs : List α} : ∀ {a z : Nat}, Tiles addr size a xs z → a ≤ z := by
  induction xs with
  | nil =>
      intro a z h
      exact Nat.le_of_eq h
  | cons x xs ih =>
      intro a z h
      have hle := ih h.2.2
      omega

/-- Every piece is inside. -/
theorem bounds {xs : List α} : ∀ {a z : Nat}, Tiles addr size a xs z → ∀ {x : α}, x ∈ xs →
    a ≤ addr x ∧ addr x + size x ≤ z ∧ 0 < size x := by
  induction xs with
  | nil =>
      intro a z _ x hx
      cases hx
  | cons y ys ih =>
      intro a z h x hx
      obtain ⟨haddr, hpos, htail⟩ := h
      have hle := htail.le
      rcases List.mem_cons.mp hx with rfl | hx
      · omega
      · have := ih htail hx
        omega

/-- Each piece ends before the next ones start. -/
theorem pairwise {xs : List α} : ∀ {a z : Nat}, Tiles addr size a xs z →
    xs.Pairwise fun x y => addr x + size x ≤ addr y := by
  induction xs with
  | nil =>
      intro a z _
      exact List.Pairwise.nil
  | cons x xs ih =>
      intro a z h
      obtain ⟨rfl, hpos, htail⟩ := h
      refine List.pairwise_cons.mpr ⟨fun y hy => ?_, ih htail⟩
      exact (htail.bounds hy).1

/-- Two pieces of one address are one piece. -/
theorem addr_ne {xs ys : List α} {x : α} {a z : Nat}
    (h : Tiles addr size a (xs ++ x :: ys) z) :
    (∀ y ∈ xs, addr y < addr x) ∧ ∀ y ∈ ys, addr x < addr y := by
  obtain ⟨hxs, hpos, hys⟩ := h.middle
  refine ⟨fun y hy => ?_, fun y hy => ?_⟩
  · have := hxs.bounds hy
    omega
  · have := hys.bounds hy
    omega

/-- Every point of the range is in a piece. -/
theorem exists_mem {xs : List α} : ∀ {a z : Nat}, Tiles addr size a xs z → ∀ {i : Nat}, a ≤ i →
    i < z → ∃ x ∈ xs, addr x ≤ i ∧ i < addr x + size x := by
  induction xs with
  | nil =>
      intro a z h i ha hz
      have heq : a = z := h
      omega
  | cons x xs ih =>
      intro a z h i ha hz
      obtain ⟨haddr, hpos, htail⟩ := h
      by_cases hi : i < a + size x
      · exact ⟨x, List.mem_cons_self .., by omega, by omega⟩
      · obtain ⟨y, hy, hin⟩ := ih htail (by omega) hz
        exact ⟨y, List.mem_cons_of_mem x hy, hin⟩

theorem sum_size {xs : List α} : ∀ {a z : Nat}, Tiles addr size a xs z →
    a + (xs.map size).sum = z := by
  induction xs with
  | nil =>
      intro a z h
      exact h
  | cons x xs ih =>
      intro a z h
      have hsum := ih h.2.2
      rw [List.map_cons, List.sum_cons]
      omega

end Tiles

end Ccbase.Lib
