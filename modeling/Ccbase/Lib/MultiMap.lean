import Mathlib.Order.Defs.LinearOrder
import Mathlib.Order.Basic
import Mathlib.Data.List.Basic
import Mathlib.Data.List.Perm.Basic
import Mathlib.Order.Lattice

/-!
# `std::multimap` as a sorted association list

The entries are in iteration order; entries of one key are in the order in which
they came. An iterator is given by the test that it is the first entry to pass,
so that reading and erasing at it are `find?` and `eraseP`. What the proofs use
is which entries there are, up to order.
-/

namespace Ccbase.Lib

structure MultiMap (κ ν : Type) [LinearOrder κ] where
  entries : List (κ × ν)
  sorted : entries.Pairwise fun a b => a.1 ≤ b.1

/-- What is found first is what is erased. -/
theorem perm_cons_eraseP {α : Type} {p : α → Bool} {xs : List α} {x : α}
    (h : xs.find? p = some x) : xs.Perm (x :: xs.eraseP p) := by
  induction xs with
  | nil => cases h
  | cons y ys ih =>
      by_cases hy : p y = true
      · rw [List.find?_cons_of_pos hy] at h
        cases h
        rw [List.eraseP_cons_of_pos hy]
      · rw [List.find?_cons_of_neg hy] at h
        rw [List.eraseP_cons_of_neg hy]
        exact ((ih h).cons y).trans (List.Perm.swap x y _)

namespace MultiMap

variable {κ ν : Type} [LinearOrder κ]

def empty : MultiMap κ ν := ⟨[], List.Pairwise.nil⟩

/-- Behind all entries whose key is at most `k`. -/
def emplaceList (k : κ) (v : ν) : List (κ × ν) → List (κ × ν)
  | [] => [(k, v)]
  | e :: es => if e.1 ≤ k then e :: emplaceList k v es else (k, v) :: e :: es

theorem perm_emplaceList (k : κ) (v : ν) (es : List (κ × ν)) :
    (emplaceList k v es).Perm ((k, v) :: es) := by
  induction es with
  | nil => exact List.Perm.refl _
  | cons e es ih =>
      simp only [emplaceList]
      split
      · exact (ih.cons e).trans (List.Perm.swap _ _ _)
      · exact List.Perm.refl _

theorem sorted_emplaceList {k : κ} {v : ν} {es : List (κ × ν)}
    (h : es.Pairwise fun a b => a.1 ≤ b.1) :
    (emplaceList k v es).Pairwise fun a b => a.1 ≤ b.1 := by
  induction es with
  | nil => simp [emplaceList]
  | cons e es ih =>
      obtain ⟨he, hes⟩ := List.pairwise_cons.mp h
      simp only [emplaceList]
      split
      · rename_i hek
        refine List.pairwise_cons.mpr ⟨fun d hd => ?_, ih hes⟩
        rcases List.mem_cons.mp ((perm_emplaceList k v es).mem_iff.mp hd) with rfl | hd
        · exact hek
        · exact he d hd
      · rename_i hek
        have hke : k ≤ e.1 := le_of_lt (not_le.mp hek)
        refine List.pairwise_cons.mpr ⟨fun d hd => ?_, h⟩
        rcases List.mem_cons.mp hd with rfl | hd
        · exact hke
        · exact hke.trans (he d hd)

def emplace (m : MultiMap κ ν) (k : κ) (v : ν) : MultiMap κ ν :=
  ⟨emplaceList k v m.entries, sorted_emplaceList m.sorted⟩

/-- `lower_bound(k)`: the first entry whose key is at least `k`. -/
def lowerBound (m : MultiMap κ ν) (k : κ) : Option (κ × ν) :=
  m.entries.find? fun e => decide (k ≤ e.1)

/-- The first entry that passes `p` is erased. -/
def eraseFirst (m : MultiMap κ ν) (p : κ × ν → Bool) : MultiMap κ ν :=
  ⟨m.entries.eraseP p, m.sorted.sublist List.eraseP_sublist⟩

/-- `erase(lower_bound(k))`. -/
def eraseLowerBound (m : MultiMap κ ν) (k : κ) : MultiMap κ ν :=
  m.eraseFirst fun e => decide (k ≤ e.1)

theorem ext {m m' : MultiMap κ ν} (h : m.entries = m'.entries) : m = m' := by
  cases m
  cases m'
  cases h
  rfl

theorem perm_emplace (m : MultiMap κ ν) (k : κ) (v : ν) :
    (m.emplace k v).entries.Perm ((k, v) :: m.entries) :=
  perm_emplaceList k v m.entries

theorem le_of_lowerBound {m : MultiMap κ ν} {k : κ} {e : κ × ν} (h : m.lowerBound k = some e) :
    k ≤ e.1 := by
  have hp := List.find?_some h
  exact of_decide_eq_true hp

theorem mem_of_lowerBound {m : MultiMap κ ν} {k : κ} {e : κ × ν}
    (h : m.lowerBound k = some e) : e ∈ m.entries :=
  List.mem_of_find?_eq_some h

theorem perm_eraseLowerBound {m : MultiMap κ ν} {k : κ} {e : κ × ν}
    (h : m.lowerBound k = some e) : m.entries.Perm (e :: (m.eraseLowerBound k).entries) :=
  perm_cons_eraseP h

/-- Erasing one entry that is there, by a test that only it passes. -/
theorem perm_eraseFirst {m : MultiMap κ ν} {p : κ × ν → Bool} {e : κ × ν} (h : e ∈ m.entries)
    (hp : ∀ d, p d = true ↔ d = e) : m.entries.Perm (e :: (m.eraseFirst p).entries) := by
  refine perm_cons_eraseP ?_
  cases hfind : m.entries.find? p with
  | none =>
      rw [List.find?_eq_none] at hfind
      exact absurd ((hp e).mpr rfl) (hfind e h)
  | some d => rw [(hp d).mp (List.find?_some hfind)]

/-- The same for a list that has the entries in some order. -/
theorem perm_eraseFirst_middle {m : MultiMap κ ν} {p : κ × ν → Bool} {e : κ × ν}
    {xs ys : List (κ × ν)} (h : m.entries.Perm (xs ++ e :: ys)) (hp : ∀ d, p d = true ↔ d = e) :
    (m.eraseFirst p).entries.Perm (xs ++ ys) := by
  have hmem : e ∈ m.entries := h.mem_iff.mpr (by simp)
  have herase := (perm_eraseFirst hmem hp).symm.trans (h.trans List.perm_middle)
  exact herase.cons_inv

theorem perm_eraseLowerBound_middle {m : MultiMap κ ν} {k : κ} {e : κ × ν}
    {xs ys : List (κ × ν)} (h : m.entries.Perm (xs ++ e :: ys)) (hk : m.lowerBound k = some e) :
    (m.eraseLowerBound k).entries.Perm (xs ++ ys) :=
  ((perm_eraseLowerBound hk).symm.trans (h.trans List.perm_middle)).cons_inv

theorem perm_emplace_middle {m : MultiMap κ ν} {xs ys : List (κ × ν)} (k : κ) (v : ν)
    (h : m.entries.Perm (xs ++ ys)) : (m.emplace k v).entries.Perm (xs ++ (k, v) :: ys) :=
  (perm_emplace m k v).trans ((h.cons (k, v)).trans List.perm_middle.symm)

/-! ## Other values under the same keys -/

section Values

variable {ν' : Type} {m : MultiMap κ ν} {m' : MultiMap κ ν'} {g : ν → ν'}

theorem emplaceList_map (k : κ) (v : ν) (es : List (κ × ν)) :
    emplaceList k (g v) (es.map fun e => (e.1, g e.2)) =
      (emplaceList k v es).map fun e => (e.1, g e.2) := by
  induction es with
  | nil => rfl
  | cons e es ih =>
      simp only [List.map_cons, emplaceList, ih]
      split
      · rfl
      · rfl

theorem entries_emplace_map (h : m'.entries = m.entries.map fun e => (e.1, g e.2)) (k : κ) (v : ν) :
    (m'.emplace k (g v)).entries = (m.emplace k v).entries.map fun e => (e.1, g e.2) := by
  show emplaceList k (g v) m'.entries = _
  rw [h, emplaceList_map]
  rfl

theorem lowerBound_map (h : m'.entries = m.entries.map fun e => (e.1, g e.2)) (k : κ) :
    m'.lowerBound k = (m.lowerBound k).map fun e => (e.1, g e.2) := by
  rw [lowerBound, h, List.find?_map]
  rfl

/-- Two tests that agree on what is there. -/
theorem entries_eraseFirst_map {p : κ × ν → Bool} {p' : κ × ν' → Bool}
    (h : m'.entries = m.entries.map fun e => (e.1, g e.2))
    (hp : ∀ e ∈ m.entries, p' (e.1, g e.2) = p e) :
    (m'.eraseFirst p').entries = (m.eraseFirst p).entries.map fun e => (e.1, g e.2) := by
  have herase : ∀ es : List (κ × ν), (∀ e ∈ es, p' (e.1, g e.2) = p e) →
      (es.map fun e => (e.1, g e.2)).eraseP p' = (es.eraseP p).map fun e => (e.1, g e.2) := by
    intro es hes
    induction es with
    | nil => rfl
    | cons e es ih =>
        have he := hes e (List.mem_cons_self ..)
        rw [List.map_cons]
        by_cases hpe : p e = true
        · rw [List.eraseP_cons_of_pos hpe, List.eraseP_cons_of_pos (by rw [he, hpe])]
        · rw [List.eraseP_cons_of_neg hpe, List.eraseP_cons_of_neg (by rw [he]; exact hpe),
            ih fun d hd => hes d (List.mem_cons_of_mem e hd)]
          rfl
  show m'.entries.eraseP p' = _
  rw [h]
  exact herase m.entries hp

theorem entries_eraseLowerBound_map (h : m'.entries = m.entries.map fun e => (e.1, g e.2)) (k : κ) :
    (m'.eraseLowerBound k).entries = (m.eraseLowerBound k).entries.map fun e => (e.1, g e.2) :=
  entries_eraseFirst_map h fun _ _ => rfl

end Values

end MultiMap

end Ccbase.Lib
