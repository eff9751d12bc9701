import Mathlib.Order.Defs.LinearOrder
import Mathlib.Order.Basic
import Mathlib.Data.List.Basic
import Mathlib.Order.Lattice

/-!
# `std::set` as a strictly sorted list

The comparator is given by a key: two elements are equivalent when their keys
are equal. As in C++ the key of an element may be read through memory, so it
is a parameter of every operation and not part of the set; the set is in
order as long as the keys of its elements do not change.
-/

namespace Ccbase.Lib.OrdSet

variable {α κ : Type} [LinearOrder κ]

/-- `emplace`: no effect when an equivalent element is already there. -/
def emplace (key : α → κ) (x : α) : List α → List α
  | [] => [x]
  | y :: ys =>
      if key x < key y then x :: y :: ys
      else if key y < key x then y :: emplace key x ys
      else y :: ys

/-- `erase`: takes out the element whose key is `k`, if there is one. -/
def erase (key : α → κ) (k : κ) : List α → List α
  | [] => []
  | y :: ys =>
      if key y < k then y :: erase key k ys
      else if k < key y then y :: ys
      else ys

/-- `lower_bound`: the first element that is not below `k`. -/
def lowerBound (key : α → κ) (k : κ) (xs : List α) : Option α :=
  xs.find? fun y => !decide (key y < k)

/-- Strictly increasing keys. -/
def Sorted (key : α → κ) (xs : List α) : Prop :=
  xs.Pairwise fun x y => key x < key y

section Basic

variable {key : α → κ}

theorem sorted_nil : Sorted key [] := List.Pairwise.nil

theorem sorted_cons {y : α} {ys : List α} :
    Sorted key (y :: ys) ↔ (∀ z ∈ ys, key y < key z) ∧ Sorted key ys :=
  List.pairwise_cons

theorem mem_emplace {x y : α} {xs : List α} (h : y ∈ emplace key x xs) :
    y = x ∨ y ∈ xs := by
  induction xs with
  | nil => simpa [emplace] using h
  | cons z zs ih =>
      simp only [emplace] at h
      split at h
      · simpa using h
      · split at h
        · rcases List.mem_cons.mp h with rfl | h
          · exact .inr (by simp)
          · exact (ih h).imp id (List.mem_cons_of_mem z)
        · exact .inr h

theorem mem_emplace_of_mem {x y : α} {xs : List α} (h : y ∈ xs) :
    y ∈ emplace key x xs := by
  induction xs with
  | nil => cases h
  | cons z zs ih =>
      simp only [emplace]
      split
      · exact List.mem_cons_of_mem x h
      · split
        · rcases List.mem_cons.mp h with rfl | h
          · simp
          · exact List.mem_cons_of_mem z (ih h)
        · exact h

/-- A new key is really inserted. -/
theorem mem_emplace_self {x : α} {xs : List α} (h : ∀ y ∈ xs, key y ≠ key x) :
    x ∈ emplace key x xs := by
  induction xs with
  | nil => simp [emplace]
  | cons z zs ih =>
      simp only [emplace]
      split
      · simp
      · rename_i hxz
        rw [if_pos (lt_of_le_of_ne (not_lt.mp hxz) (h z (by simp)))]
        exact List.mem_cons_of_mem z (ih fun y hy => h y (by simp [hy]))

/-- With keys that tell elements apart, an element is in the set after it has
been put there. -/
theorem mem_emplace_inj (hkey : Function.Injective key) (x : α) (xs : List α) :
    x ∈ emplace key x xs := by
  by_cases hx : x ∈ xs
  · exact mem_emplace_of_mem hx
  · exact mem_emplace_self fun y hy heq => hx (hkey heq ▸ hy)

theorem sorted_emplace {x : α} {xs : List α} (h : Sorted key xs) :
    Sorted key (emplace key x xs) := by
  induction xs with
  | nil => simp [emplace, Sorted]
  | cons z zs ih =>
      obtain ⟨hz, hzs⟩ := sorted_cons.mp h
      simp only [emplace]
      split
      · rename_i hxz
        refine sorted_cons.mpr ⟨?_, h⟩
        intro w hw
        rcases List.mem_cons.mp hw with rfl | hw
        · exact hxz
        · exact hxz.trans (hz w hw)
      · split
        · rename_i hzx
          refine sorted_cons.mpr ⟨?_, ih hzs⟩
          intro w hw
          rcases mem_emplace hw with rfl | hw
          · exact hzx
          · exact hz w hw
        · exact h

theorem perm_emplace {x : α} {xs : List α} (h : ∀ y ∈ xs, key y ≠ key x) :
    (emplace key x xs).Perm (x :: xs) := by
  induction xs with
  | nil => exact .refl _
  | cons z zs ih =>
      have ih := ih fun y hy => h y (by simp [hy])
      simp only [emplace]
      split
      · exact .refl _
      · split
        · exact (ih.cons z).trans (.swap _ _ _)
        · rename_i h1 h2
          exact absurd (le_antisymm (not_lt.mp h1) (not_lt.mp h2)) (h z (by simp))

theorem Sorted.nodup {xs : List α} (h : Sorted key xs) : xs.Nodup :=
  h.imp fun hlt heq => by
    rw [heq] at hlt
    exact lt_irrefl _ hlt

theorem mem_of_mem_erase {k : κ} {y : α} {xs : List α} (h : y ∈ erase key k xs) :
    y ∈ xs := by
  induction xs with
  | nil => cases h
  | cons z zs ih =>
      simp only [erase] at h
      split at h
      · rcases List.mem_cons.mp h with rfl | h
        · simp
        · exact List.mem_cons_of_mem z (ih h)
      · split at h
        · exact h
        · exact List.mem_cons_of_mem z h

theorem mem_erase_of_ne {k : κ} {y : α} {xs : List α} (h : y ∈ xs)
    (hne : key y ≠ k) : y ∈ erase key k xs := by
  induction xs with
  | nil => cases h
  | cons z zs ih =>
      simp only [erase]
      split
      · rcases List.mem_cons.mp h with rfl | h
        · simp
        · exact List.mem_cons_of_mem z (ih h)
      · split
        · exact h
        · rename_i h1 h2
          rcases List.mem_cons.mp h with rfl | h
          · exact absurd (le_antisymm (not_lt.mp h2) (not_lt.mp h1)) hne
          · exact h

/-- No element of key `k` is left. -/
theorem key_ne_of_mem_erase {k : κ} {y : α} {xs : List α} (hs : Sorted key xs)
    (h : y ∈ erase key k xs) : key y ≠ k := by
  induction xs with
  | nil => cases h
  | cons z zs ih =>
      obtain ⟨hz, hzs⟩ := sorted_cons.mp hs
      simp only [erase] at h
      split at h
      · rename_i hlt
        rcases List.mem_cons.mp h with rfl | h
        · exact hlt.ne
        · exact ih hzs h
      · split at h
        · rename_i hlt
          rcases List.mem_cons.mp h with rfl | h
          · exact hlt.ne'
          · exact (hlt.trans (hz y h)).ne'
        · rename_i h1 h2
          have hzk : key z = k := le_antisymm (not_lt.mp h2) (not_lt.mp h1)
          exact (hzk ▸ hz y h).ne'

theorem sorted_erase {k : κ} {xs : List α} (h : Sorted key xs) :
    Sorted key (erase key k xs) := by
  induction xs with
  | nil => exact h
  | cons z zs ih =>
      obtain ⟨hz, hzs⟩ := sorted_cons.mp h
      simp only [erase]
      split
      · exact sorted_cons.mpr ⟨fun w hw => hz w (mem_of_mem_erase hw), ih hzs⟩
      · split
        · exact h
        · exact hzs

theorem lowerBound_some {k : κ} {x : α} {xs : List α}
    (h : lowerBound key k xs = some x) : x ∈ xs ∧ k ≤ key x := by
  refine ⟨List.mem_of_find?_eq_some h, ?_⟩
  have := List.find?_some h
  simpa using this

theorem lowerBound_none {k : κ} {xs : List α}
    (h : lowerBound key k xs = none) : ∀ x ∈ xs, key x < k := by
  intro x hx
  have := List.find?_eq_none.mp h x hx
  simpa using this

/-- Equal keys in a set in order mean equal elements. -/
theorem eq_of_key_eq {x y : α} {xs : List α} (hs : Sorted key xs)
    (hx : x ∈ xs) (hy : y ∈ xs) (h : key x = key y) : x = y := by
  induction xs with
  | nil => cases hx
  | cons z zs ih =>
      obtain ⟨hz, hzs⟩ := sorted_cons.mp hs
      rcases List.mem_cons.mp hx with rfl | hx'
      · rcases List.mem_cons.mp hy with rfl | hy'
        · rfl
        · exact absurd h (hz y hy').ne
      · rcases List.mem_cons.mp hy with rfl | hy'
        · exact absurd h (hz x hx').ne'
        · exact ih hzs hx' hy'

end Basic

section Congr

variable {key key' : α → κ}

/-- Only the keys of the elements count. -/
theorem Sorted.congr {xs : List α} (h : Sorted key xs)
    (heq : ∀ x ∈ xs, key' x = key x) : Sorted key' xs := by
  induction xs with
  | nil => exact sorted_nil
  | cons z zs ih =>
      obtain ⟨hz, hzs⟩ := sorted_cons.mp h
      refine sorted_cons.mpr ⟨fun w hw => ?_, ih hzs fun x hx => heq x (by simp [hx])⟩
      rw [heq z (by simp), heq w (by simp [hw])]
      exact hz w hw

end Congr

end Ccbase.Lib.OrdSet
