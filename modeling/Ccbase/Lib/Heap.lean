import Mathlib.Algebra.Order.BigOperators.Group.List
import Mathlib.Algebra.Order.Ring.Nat
import Mathlib.Algebra.BigOperators.Intervals
import Mathlib.Order.Interval.Finset.Nat

/-!
# A heap of objects

C++ objects created with `new` and destroyed with `delete`, as a partial map
from pointers to objects. Pointers are handed out in increasing order and are
never reused, so that a dangling pointer stays recognisable: its cell is
empty. A write through a dangling pointer has no effect here.

The last part of the module is about `Heap.sum`, the total weight of the
objects that exist: every update of the heap changes it by the weight of the
object it touches.
-/

namespace Ccbase.Lib

/-- Objects by pointer. `next` is the pointer the next `new` returns. -/
structure Heap (α : Type) where
  cells : Nat → Option α
  next : Nat
  fresh : ∀ p, next ≤ p → cells p = none

namespace Heap

variable {α β : Type}

def empty : Heap α := ⟨fun _ => none, 0, fun _ _ => rfl⟩

/-- The object `p` points to, `none` once it has been deleted. -/
def get (h : Heap α) (p : Nat) : Option α := h.cells p

/-- `new`: the object sits at `h.next`. -/
def new (h : Heap α) (x : α) : Heap α where
  cells q := if q = h.next then some x else h.cells q
  next := h.next + 1
  fresh := fun p hp => by
    rw [if_neg (by omega)]
    exact h.fresh p (by omega)

/-- A write through `p`. -/
def modify (h : Heap α) (p : Nat) (f : α → α) : Heap α where
  cells q := if q = p then (h.cells p).map f else h.cells q
  next := h.next
  fresh := fun q hq => by
    split
    · rename_i hqp
      rw [← hqp, h.fresh q hq]
      rfl
    · exact h.fresh q hq

/-- A write through a pointer that may be null. -/
def modify? (h : Heap α) (p : Option Nat) (f : α → α) : Heap α :=
  match p with
  | some p => h.modify p f
  | none => h

/-- `delete p`. -/
def delete (h : Heap α) (p : Nat) : Heap α where
  cells q := if q = p then none else h.cells q
  next := h.next
  fresh := fun q hq => by
    split
    · rfl
    · exact h.fresh q hq

/-- The same objects seen through `f`. -/
def map (f : α → β) (h : Heap α) : Heap β where
  cells p := (h.cells p).map f
  next := h.next
  fresh := fun p hp => by rw [h.fresh p hp]; rfl

@[ext] theorem ext {h h' : Heap α} (hg : ∀ p, h.get p = h'.get p)
    (hn : h.next = h'.next) : h = h' := by
  obtain ⟨c, n, _⟩ := h
  obtain ⟨c', n', _⟩ := h'
  have hc : c = c' := funext hg
  subst hc
  simp only at hn
  subst hn
  rfl

@[simp] theorem get_empty (p : Nat) : (empty : Heap α).get p = none := rfl

theorem get_new (h : Heap α) (x : α) (q : Nat) :
    (h.new x).get q = if q = h.next then some x else h.get q := rfl

@[simp] theorem get_new_self (h : Heap α) (x : α) :
    (h.new x).get h.next = some x := by simp [get_new]

theorem get_modify (h : Heap α) (p q : Nat) (f : α → α) :
    (h.modify p f).get q = if q = p then (h.get p).map f else h.get q := rfl

@[simp] theorem get_modify_self (h : Heap α) (p : Nat) (f : α → α) :
    (h.modify p f).get p = (h.get p).map f := by simp [get_modify]

theorem get_modify_ne (h : Heap α) {p q : Nat} (f : α → α) (hne : q ≠ p) :
    (h.modify p f).get q = h.get q := by simp [get_modify, hne]

theorem get_delete (h : Heap α) (p q : Nat) :
    (h.delete p).get q = if q = p then none else h.get q := rfl

@[simp] theorem get_delete_self (h : Heap α) (p : Nat) :
    (h.delete p).get p = none := by simp [get_delete]

theorem get_delete_ne (h : Heap α) {p q : Nat} (hne : q ≠ p) :
    (h.delete p).get q = h.get q := by simp [get_delete, hne]

@[simp] theorem modify?_none (h : Heap α) (f : α → α) :
    h.modify? none f = h := rfl

@[simp] theorem modify?_some (h : Heap α) (p : Nat) (f : α → α) :
    h.modify? (some p) f = h.modify p f := rfl

theorem get_modify?_ne (h : Heap α) {p : Option Nat} {q : Nat} (f : α → α)
    (hne : p ≠ some q) : (h.modify? p f).get q = h.get q := by
  cases p with
  | none => rfl
  | some p =>
      exact h.get_modify_ne f (fun heq => hne (by rw [heq]))

/-- What a write leaves at `q` depends on what was at `q` only. -/
theorem get_modify?_congr {h h' : Heap α} {q : Nat} (heq : h'.get q = h.get q)
    (p : Option Nat) (f : α → α) : (h'.modify? p f).get q = (h.modify? p f).get q := by
  cases p with
  | none => exact heq
  | some p =>
      simp only [modify?_some, get_modify]
      split
      · rename_i hqp
        rw [← hqp, heq]
      · exact heq

@[simp] theorem get_map (f : α → β) (h : Heap α) (p : Nat) :
    (h.map f).get p = (h.get p).map f := rfl

@[simp] theorem next_new (h : Heap α) (x : α) :
    (h.new x).next = h.next + 1 := rfl

@[simp] theorem next_modify (h : Heap α) (p : Nat) (f : α → α) :
    (h.modify p f).next = h.next := rfl

@[simp] theorem next_modify? (h : Heap α) (p : Option Nat) (f : α → α) :
    (h.modify? p f).next = h.next := by cases p <;> rfl

@[simp] theorem next_delete (h : Heap α) (p : Nat) :
    (h.delete p).next = h.next := rfl

@[simp] theorem next_map (f : α → β) (h : Heap α) :
    (h.map f).next = h.next := rfl

/-- An existing object sits below the allocation frontier. -/
theorem lt_next {h : Heap α} {p : Nat} {x : α} (hp : h.get p = some x) :
    p < h.next := by
  rcases Nat.lt_or_ge p h.next with hlt | hge
  · exact hlt
  · have hnone : h.get p = none := h.fresh p hge
    rw [hnone] at hp
    cases hp

theorem get_next (h : Heap α) : h.get h.next = none := h.fresh _ (Nat.le_refl _)

/-- A fresh pointer is none of the existing ones. -/
theorem ne_next {h : Heap α} {p : Nat} {x : α} (hp : h.get p = some x) :
    p ≠ h.next := Nat.ne_of_lt (lt_next hp)

/-- There are finitely many objects to look at. -/
theorem forall_get_iff {P : Nat → α → Prop} {h : Heap α} :
    (∀ p ∈ List.range h.next, ∀ x ∈ h.get p, P p x) ↔ ∀ p x, h.get p = some x → P p x := by
  constructor
  · exact fun hall p x hp => hall p (List.mem_range.mpr (lt_next hp)) x hp
  · exact fun hall p _ x hp => hall p x hp

theorem map_new (f : α → β) (h : Heap α) (x : α) :
    (h.new x).map f = (h.map f).new (f x) := by
  refine ext (fun p => ?_) rfl
  simp only [get_map, get_new, next_map]
  by_cases hp : p = h.next <;> simp [hp]

theorem map_delete (f : α → β) (h : Heap α) (p : Nat) :
    (h.delete p).map f = (h.map f).delete p := by
  refine ext (fun q => ?_) rfl
  simp only [get_map, get_delete]
  split <;> rfl

/-- A write that `f` sees as the write `g'`. -/
theorem map_modify {f : α → β} {g : α → α} {g' : β → β}
    (hg : ∀ x, f (g x) = g' (f x)) (h : Heap α) (p : Nat) :
    (h.modify p g).map f = (h.map f).modify p g' := by
  refine ext (fun q => ?_) rfl
  simp only [get_map, get_modify]
  split
  · cases h.get p with
    | none => rfl
    | some x => simp [hg]
  · rfl

/-- A write that `f` does not see. -/
theorem map_modify_eq {f : α → β} {g : α → α} (hg : ∀ x, f (g x) = f x)
    (h : Heap α) (p : Nat) : (h.modify p g).map f = h.map f := by
  refine ext (fun q => ?_) rfl
  simp only [get_map, get_modify]
  split
  · rename_i hqp
    subst hqp
    cases h.get q with
    | none => rfl
    | some x => simp [hg]
  · rfl

theorem map_modify?_eq {f : α → β} {g : α → α} (hg : ∀ x, f (g x) = f x)
    (h : Heap α) (p : Option Nat) : (h.modify? p g).map f = h.map f := by
  cases p with
  | none => rfl
  | some p => exact map_modify_eq hg h p

/-! ## What holds of all objects -/

/-- Every object that exists satisfies `P`. -/
def All (P : α → Prop) (h : Heap α) : Prop := ∀ p x, h.get p = some x → P x

section All

variable {P : α → Prop} {h : Heap α}

theorem All.modify (hall : h.All P) (p : Nat) {g : α → α} (hg : ∀ x, P x → P (g x)) :
    (h.modify p g).All P := by
  intro q x hq
  rw [get_modify] at hq
  split at hq
  · obtain ⟨y, hy, rfl⟩ := Option.map_eq_some_iff.mp hq
    exact hg y (hall p y hy)
  · exact hall q x hq

theorem All.modify? (hall : h.All P) (p : Option Nat) {g : α → α} (hg : ∀ x, P x → P (g x)) :
    (h.modify? p g).All P := by
  cases p with
  | none => exact hall
  | some p => exact hall.modify p hg

theorem All.delete (hall : h.All P) (p : Nat) : (h.delete p).All P := by
  intro q x hq
  rw [get_delete] at hq
  split at hq
  · cases hq
  · exact hall q x hq

theorem All.new (hall : h.All P) {x : α} (hx : P x) : (h.new x).All P := by
  intro q y hq
  rw [get_new] at hq
  split at hq
  · cases hq
    exact hx
  · exact hall q y hq

end All

/-! ## The total weight of the existing objects -/

/-- Weight of one cell, `0` for an empty one. -/
def weight (f : α → Nat) : Option α → Nat
  | some x => f x
  | none => 0

@[simp] theorem weight_some (f : α → Nat) (x : α) : weight f (some x) = f x := rfl

@[simp] theorem weight_none (f : α → Nat) : weight f (none : Option α) = 0 := rfl

/-- The sum of `f` over all existing objects. -/
def sum (f : α → Nat) (h : Heap α) : Nat :=
  ((List.range h.next).map fun p => weight f (h.get p)).sum

/-- Two functions that differ at one index only have sums that differ by
the values there. -/
theorem sum_range_update (g g' : Nat → Nat) (p : Nat)
    (hne : ∀ q, q ≠ p → g' q = g q) : ∀ n, p < n →
    ((List.range n).map g').sum + g p = ((List.range n).map g).sum + g' p := by
  intro n
  induction n with
  | zero => intro hp; omega
  | succ n ih =>
      intro hp
      simp only [List.range_succ, List.map_append, List.sum_append, List.map_cons,
        List.map_nil, List.sum_cons, List.sum_nil]
      rcases Nat.lt_or_ge p n with hlt | hge
      · have := ih hlt
        rw [hne n (by omega)]
        omega
      · have hpn : p = n := by omega
        subst hpn
        have heq : (List.range p).map g' = (List.range p).map g := by
          apply List.map_congr_left
          intro q hq
          have := List.mem_range.mp hq
          exact hne q (by omega)
        rw [heq]
        omega

/-- Replacing one existing object changes the sum by the two weights. -/
theorem sum_modify {f : α → Nat} {g : α → α} {h : Heap α} {p : Nat} {x : α}
    (hp : h.get p = some x) :
    (h.modify p g).sum f + f x = h.sum f + f (g x) := by
  have := sum_range_update (fun q => weight f (h.get q))
    (fun q => weight f ((h.modify p g).get q)) p
    (fun q hq => by simp only [h.get_modify_ne g hq]) h.next (lt_next hp)
  simpa [sum, hp] using this

theorem sum_delete {f : α → Nat} {h : Heap α} {p : Nat} {x : α}
    (hp : h.get p = some x) : (h.delete p).sum f + f x = h.sum f := by
  have := sum_range_update (fun q => weight f (h.get q))
    (fun q => weight f ((h.delete p).get q)) p
    (fun q hq => by simp only [h.get_delete_ne hq]) h.next (lt_next hp)
  simpa [sum, hp] using this

theorem sum_new (f : α → Nat) (h : Heap α) (x : α) :
    (h.new x).sum f = h.sum f + f x := by
  simp only [sum, next_new, List.range_succ, List.map_append, List.sum_append,
    List.map_cons, List.map_nil, List.sum_cons, List.sum_nil, get_new_self,
    weight_some, Nat.add_zero]
  congr 2
  apply List.map_congr_left
  intro q hq
  have := List.mem_range.mp hq
  rw [get_new, if_neg (by omega)]

@[simp] theorem sum_empty (f : α → Nat) : (empty : Heap α).sum f = 0 := rfl

theorem sum_map (f : β → Nat) (g : α → β) (h : Heap α) :
    (h.map g).sum f = h.sum (fun x => f (g x)) := by
  simp only [sum, next_map, get_map]
  congr 1
  apply List.map_congr_left
  intro p _
  cases h.get p <;> rfl

/-- Cells beyond the frontier weigh nothing. -/
theorem sum_range_of_le (f : α → Nat) (h : Heap α) {n : Nat} (hn : h.next ≤ n) :
    ((List.range n).map fun p => weight f (h.get p)).sum = h.sum f := by
  induction n, hn using Nat.le_induction with
  | base => rfl
  | succ n hle ih =>
      rw [List.range_succ, List.map_append, List.sum_append, ih]
      have hnone : h.get n = none := h.fresh n hle
      simp [hnone]

/-- Two heaps that weigh the same everywhere but at `p`. -/
theorem sum_update (f : α → Nat) (h h' : Heap α) (p : Nat)
    (hne : ∀ q, q ≠ p → weight f (h'.get q) = weight f (h.get q)) :
    h'.sum f + weight f (h.get p) = h.sum f + weight f (h'.get p) := by
  have hle : h.next ≤ max (max h.next h'.next) (p + 1) := by omega
  have hle' : h'.next ≤ max (max h.next h'.next) (p + 1) := by omega
  have := sum_range_update (fun q => weight f (h.get q)) (fun q => weight f (h'.get q)) p hne
    (max (max h.next h'.next) (p + 1)) (by omega)
  rwa [sum_range_of_le f h hle, sum_range_of_le f h' hle'] at this

theorem sum_eq_of_weight {f : α → Nat} {h h' : Heap α}
    (heq : ∀ q, weight f (h'.get q) = weight f (h.get q)) : h'.sum f = h.sum f := by
  have := sum_update f h h' 0 fun q _ => heq q
  rw [heq 0] at this
  omega

/-- A heap that weighs nowhere more than another. -/
theorem sum_le_of_weight {f : α → Nat} {h h' : Heap α}
    (hle : ∀ q, weight f (h'.get q) ≤ weight f (h.get q)) : h'.sum f ≤ h.sum f := by
  rw [← sum_range_of_le f h (Nat.le_max_left h.next h'.next),
    ← sum_range_of_le f h' (Nat.le_max_right h.next h'.next)]
  exact List.sum_le_sum fun q _ => hle q

theorem sum_congr {f f' : α → Nat} {h : Heap α}
    (hf : ∀ p x, h.get p = some x → f x = f' x) : h.sum f = h.sum f' := by
  simp only [sum]
  congr 1
  apply List.map_congr_left
  intro p _
  cases hp : h.get p with
  | none => rfl
  | some x => simp [hf p x hp]

theorem sum_le_sum {f f' : α → Nat} {h : Heap α}
    (hf : ∀ p x, h.get p = some x → f x ≤ f' x) : h.sum f ≤ h.sum f' := by
  simp only [sum]
  apply List.sum_le_sum
  intro p _
  cases hp : h.get p with
  | none => simp
  | some x => simpa using hf p x hp

theorem sum_eq_zero {f : α → Nat} {h : Heap α}
    (hf : ∀ p x, h.get p = some x → f x = 0) : h.sum f = 0 := by
  apply List.sum_eq_zero
  intro n hn
  obtain ⟨p, _, rfl⟩ := List.mem_map.mp hn
  cases hp : h.get p with
  | none => rfl
  | some x => exact hf p x hp

theorem le_sum {f : α → Nat} {h : Heap α} {p : Nat} {x : α}
    (hp : h.get p = some x) : f x ≤ h.sum f := by
  have := sum_delete (f := f) hp
  omega

theorem sum_eq_finset (f : α → Nat) (h : Heap α) :
    h.sum f = ∑ p ∈ Finset.range h.next, weight f (h.get p) := rfl

/-- Ranges that have no byte in common and end at `N` have at most `N` bytes
together. -/
theorem sum_le_of_disjoint (lo : α → Nat) {len : α → Nat} {h : Heap α} {N : Nat}
    (hdis : ∀ p q x y a, h.get p = some x → h.get q = some y → lo x ≤ a → a < lo x + len x →
      lo y ≤ a → a < lo y + len y → p = q)
    (hin : ∀ p x, h.get p = some x → lo x + len x ≤ N) : h.sum len ≤ N := by
  -- the bytes of a cell, as a set of numbers below `N`
  let bytes : Nat → Finset Nat := fun p =>
    match h.get p with
    | some x => Finset.Ico (lo x) (lo x + len x)
    | none => ∅
  have hcard : ∀ p, (bytes p).card = weight len (h.get p) := by
    intro p
    cases hp : h.get p with
    | none => simp [bytes, hp]
    | some x => simp [bytes, hp]
  have hbytes : ∀ p a, a ∈ bytes p → ∃ x, h.get p = some x ∧ lo x ≤ a ∧ a < lo x + len x := by
    intro p a ha
    cases hp : h.get p with
    | none => simp [bytes, hp] at ha
    | some x => exact ⟨x, rfl, by simpa [bytes, hp] using ha⟩
  have hpair : Set.PairwiseDisjoint (Finset.range h.next : Set Nat) bytes := by
    intro p _ q _ hpq
    rw [Function.onFun, Finset.disjoint_left]
    intro a hap haq
    obtain ⟨x, hx, h1, h2⟩ := hbytes p a hap
    obtain ⟨y, hy, h3, h4⟩ := hbytes q a haq
    exact hpq (hdis p q x y a hx hy h1 h2 h3 h4)
  have hsub : (Finset.range h.next).biUnion bytes ⊆ Finset.range N := by
    intro a ha
    obtain ⟨p, _, ha⟩ := Finset.mem_biUnion.mp ha
    obtain ⟨x, hx, _, h2⟩ := hbytes p a ha
    have := hin p x hx
    exact Finset.mem_range.mpr (by omega)
  calc h.sum len = ∑ p ∈ Finset.range h.next, (bytes p).card := by
        rw [sum_eq_finset]
        exact Finset.sum_congr rfl fun p _ => (hcard p).symm
    _ = ((Finset.range h.next).biUnion bytes).card := (Finset.card_biUnion hpair).symm
    _ ≤ (Finset.range N).card := Finset.card_le_card hsub
    _ = N := Finset.card_range N

end Heap

end Ccbase.Lib
