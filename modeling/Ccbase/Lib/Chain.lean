import Ccbase.Lib.Heap

/-!
# Doubly linked chains that tile an interval

A chain is a list of pointers whose objects are linked to each other by
`prev` and `next` and whose intervals `[lo, lo + len)` follow one another
without gap or overlap. `Seg h pv a ps nx z` says that the objects at `ps`
form such a chain from `a` to `z`, where `pv` and `nx` are the neighbours of
the chain on the left and on the right.

The rules of the last part are the three ways a chain is edited: a node
absorbs its left neighbour, absorbs its right neighbour, or gives its end to a
new right neighbour. Each is stated about any heap that agrees with the old
one after the link updates, so that the order of the writes does not matter.
-/

namespace Ccbase.Lib

/-- An object that can be a node of a chain. -/
class Node (α : Type) where
  prev : α → Option Nat
  next : α → Option Nat
  lo : α → Nat
  len : α → Nat
  setPrev : Option Nat → α → α
  setNext : Option Nat → α → α
  prev_setPrev : ∀ q x, prev (setPrev q x) = q
  next_setPrev : ∀ q x, next (setPrev q x) = next x
  lo_setPrev : ∀ q x, lo (setPrev q x) = lo x
  len_setPrev : ∀ q x, len (setPrev q x) = len x
  prev_setNext : ∀ q x, prev (setNext q x) = prev x
  next_setNext : ∀ q x, next (setNext q x) = q
  lo_setNext : ∀ q x, lo (setNext q x) = lo x
  len_setNext : ∀ q x, len (setNext q x) = len x

namespace Chain

open Node

variable {α : Type} [Node α]

/-- What a chain sees of a node. -/
def shape (x : α) : (Option Nat × Option Nat) × Nat × Nat :=
  ((prev x, next x), lo x, len x)

/-- The objects at `ps` are linked in this order, between the neighbours
`pv` and `nx`, and tile `[a, z)`. -/
def Seg (h : Heap α) : Option Nat → Nat → List Nat → Option Nat → Nat → Prop
  | _, a, [], _, z => a = z
  | pv, a, p :: ps, nx, z => ∃ x, h.get p = some x ∧ prev x = pv ∧
      next x = ps.head?.or nx ∧ lo x = a ∧ Seg h (some p) (a + len x) ps nx z

variable {h h' : Heap α} {pv nx : Option Nat} {a z : Nat} {ps : List Nat}

theorem Seg.le (hs : Seg h pv a ps nx z) : a ≤ z := by
  induction ps generalizing pv a with
  | nil => exact Nat.le_of_eq hs
  | cons p ps ih =>
      obtain ⟨x, _, _, _, _, hrest⟩ := hs
      have := ih hrest
      omega

/-- Only the shapes of the nodes count. -/
theorem Seg.congr (hs : Seg h pv a ps nx z)
    (heq : ∀ p ∈ ps, (h'.get p).map shape = (h.get p).map shape) :
    Seg h' pv a ps nx z := by
  induction ps generalizing pv a with
  | nil => exact hs
  | cons p ps ih =>
      obtain ⟨x, hx, hpv, hnx, hlo, hrest⟩ := hs
      have hp := heq p (by simp)
      rw [hx] at hp
      obtain ⟨y, hy, hxy⟩ := Option.map_eq_some_iff.mp hp
      simp only [shape, Prod.mk.injEq] at hxy
      obtain ⟨⟨h1, h2⟩, h3, h4⟩ := hxy
      refine ⟨y, hy, by rw [h1, hpv], by rw [h2, hnx], by rw [h3, hlo], ?_⟩
      rw [h4]
      exact ih hrest fun q hq => heq q (by simp [hq])

theorem Seg.congr_get (hs : Seg h pv a ps nx z)
    (heq : ∀ p ∈ ps, h'.get p = h.get p) : Seg h' pv a ps nx z :=
  hs.congr fun p hp => by rw [heq p hp]

theorem seg_append {qs : List Nat} :
    Seg h pv a (ps ++ qs) nx z ↔ ∃ m, Seg h pv a ps (qs.head?.or nx) m ∧
      Seg h (ps.getLast?.or pv) m qs nx z := by
  induction ps generalizing pv a with
  | nil => simp [Seg]
  | cons p ps ih =>
      have hlast : ∀ w, ((p :: ps).getLast?.or w) = (ps.getLast?.or (some p)) := by
        intro w
        cases ps with
        | nil => rfl
        | cons q ps =>
            rw [List.getLast?_cons_cons]
            cases hl : (q :: ps).getLast? with
            | none => simp at hl
            | some r => rfl
      have hhead : (ps ++ qs).head?.or nx = ps.head?.or (qs.head?.or nx) := by
        cases ps <;> rfl
      simp only [List.cons_append, Seg, ih, hlast, hhead]
      constructor
      · rintro ⟨x, hx, hpv, hnx, hlo, m, h1, h2⟩
        exact ⟨m, ⟨x, hx, hpv, hnx, hlo, h1⟩, h2⟩
      · rintro ⟨m, ⟨x, hx, hpv, hnx, hlo, h1⟩, h2⟩
        exact ⟨x, hx, hpv, hnx, hlo, m, h1, h2⟩

/-- A node of the chain: it exists and its interval lies in the tiled one. -/
theorem Seg.mem (hs : Seg h pv a ps nx z) {p : Nat} (hp : p ∈ ps) :
    ∃ x, h.get p = some x ∧ a ≤ lo x ∧ lo x + len x ≤ z := by
  induction ps generalizing pv a with
  | nil => cases hp
  | cons q ps ih =>
      obtain ⟨x, hx, _, _, hlo, hrest⟩ := hs
      rcases List.mem_cons.mp hp with rfl | hp
      · have := hrest.le
        exact ⟨x, hx, by omega, by omega⟩
      · obtain ⟨y, hy, h1, h2⟩ := ih hrest hp
        exact ⟨y, hy, by omega, h2⟩

/-- The nodes of a chain in terms of the position of one of them. -/
theorem Seg.split {L R : List Nat} {p : Nat} (hs : Seg h pv a (L ++ p :: R) nx z) :
    ∃ x, h.get p = some x ∧ prev x = L.getLast?.or pv ∧ next x = R.head?.or nx ∧
      Seg h pv a L (some p) (lo x) ∧ Seg h (some p) (lo x + len x) R nx z := by
  obtain ⟨m, hL, x, hx, hpv, hnx, hlo, hR⟩ := seg_append.mp hs
  subst hlo
  exact ⟨x, hx, hpv, hnx, hL, hR⟩

theorem Seg.join {L R : List Nat} {p : Nat} {x : α} (hx : h.get p = some x)
    (hpv : prev x = L.getLast?.or pv) (hnx : next x = R.head?.or nx)
    (hL : Seg h pv a L (some p) (lo x)) (hR : Seg h (some p) (lo x + len x) R nx z) :
    Seg h pv a (L ++ p :: R) nx z :=
  seg_append.mpr ⟨lo x, hL, x, hx, hpv, hnx, rfl, hR⟩

/-- Different nodes have intervals that do not overlap. -/
theorem Seg.disjoint (hs : Seg h pv a ps nx z) {p q : Nat} {x y : α}
    (hp : p ∈ ps) (hq : q ∈ ps) (hne : p ≠ q)
    (hx : h.get p = some x) (hy : h.get q = some y) :
    lo x + len x ≤ lo y ∨ lo y + len y ≤ lo x := by
  induction ps generalizing pv a with
  | nil => cases hp
  | cons r ps ih =>
      obtain ⟨w, hw, _, _, hlo, hrest⟩ := hs
      rcases List.mem_cons.mp hp with rfl | hp'
      · rcases List.mem_cons.mp hq with rfl | hq'
        · exact absurd rfl hne
        · obtain ⟨y', hy', h1, _⟩ := hrest.mem hq'
          rw [hx] at hw
          rw [hy] at hy'
          cases hw
          cases hy'
          exact .inl (by omega)
      · rcases List.mem_cons.mp hq with rfl | hq'
        · obtain ⟨x', hx', h1, _⟩ := hrest.mem hp'
          rw [hy] at hw
          rw [hx] at hx'
          cases hw
          cases hx'
          exact .inr (by omega)
        · exact ih hrest hp' hq'

/-! ## Neighbours -/

/-- `q` stands right before `r`. -/
def Adj (ps : List Nat) (q r : Nat) : Prop := ∃ L R, ps = L ++ q :: r :: R

theorem adj_nil {q r : Nat} : ¬ Adj [] q r := by
  rintro ⟨L, R, h⟩
  simp at h

theorem adj_cons {p q r : Nat} :
    Adj (p :: ps) q r ↔ (p = q ∧ ps.head? = some r) ∨ Adj ps q r := by
  constructor
  · rintro ⟨L, R, h⟩
    cases L with
    | nil =>
        obtain ⟨rfl, rfl⟩ := List.cons.inj h
        exact .inl ⟨rfl, rfl⟩
    | cons x L => exact .inr ⟨L, R, (List.cons.inj h).2⟩
  · rintro (⟨rfl, h⟩ | ⟨L, R, rfl⟩)
    · cases ps with
      | nil => cases h
      | cons x R =>
          cases h
          exact ⟨[], R, rfl⟩
    · exact ⟨p :: L, R, rfl⟩

/-- The neighbours in a list in terms of the position of one element. -/
theorem adj_append_cons {L R : List Nat} {p q r : Nat} :
    Adj (L ++ p :: R) q r ↔ Adj L q r ∨ (L.getLast? = some q ∧ r = p) ∨
      (q = p ∧ R.head? = some r) ∨ Adj R q r := by
  induction L with
  | nil => simp [adj_cons, adj_nil, eq_comm]
  | cons x L ih =>
      rw [List.cons_append, adj_cons, ih, adj_cons]
      cases L with
      | nil => simp [adj_nil, eq_comm]
      | cons y L =>
          rw [List.getLast?_cons_cons]
          simp only [List.cons_append, List.head?_cons]
          tauto

theorem Adj.mem {q r : Nat} (h : Adj ps q r) : q ∈ ps ∧ r ∈ ps := by
  obtain ⟨L, R, rfl⟩ := h
  simp

/-- The left neighbour of an element of a list without repetition. -/
theorem adj_left {L R : List Nat} {p q : Nat} (hnd : (L ++ p :: R).Nodup)
    (h : Adj (L ++ p :: R) q p) : L.getLast? = some q := by
  obtain ⟨-, hR, hLR⟩ := List.nodup_append.mp hnd
  have hpR := (List.nodup_cons.mp hR).1
  rcases adj_append_cons.mp h with h | ⟨h, -⟩ | ⟨-, h⟩ | h
  · exact absurd rfl (hLR p h.mem.2 p (by simp))
  · exact h
  · exact absurd (List.mem_of_head? h) hpR
  · exact absurd h.mem.2 hpR

/-- The right neighbour of an element of a list without repetition. -/
theorem adj_right {L R : List Nat} {p r : Nat} (hnd : (L ++ p :: R).Nodup)
    (h : Adj (L ++ p :: R) p r) : R.head? = some r := by
  obtain ⟨-, hR, hLR⟩ := List.nodup_append.mp hnd
  have hpR := (List.nodup_cons.mp hR).1
  rcases adj_append_cons.mp h with h | ⟨h, -⟩ | ⟨-, h⟩ | h
  · exact absurd rfl (hLR p h.mem.1 p (by simp))
  · exact absurd rfl (hLR p (List.mem_of_mem_getLast? h) p (by simp))
  · exact h
  · exact absurd h.mem.1 hpR

/-- Neighbours of a chain are linked. -/
theorem Seg.adj {q r : Nat} (hs : Seg h pv a ps nx z) (hadj : Adj ps q r) :
    ∃ x y, h.get q = some x ∧ h.get r = some y ∧ next x = some r ∧ prev y = some q := by
  obtain ⟨L, R, rfl⟩ := hadj
  obtain ⟨x, hx, _, hnx, _, y, hy, hpv, _⟩ := hs.split
  exact ⟨x, y, hx, hy, hnx, hpv⟩

/-! ## Relinking an end of the chain -/

/-- Pointing the last node at another right neighbour. -/
theorem Seg.setNext_last (hs : Seg h pv a ps nx z) (hnd : ps.Nodup)
    (nx' : Option Nat) :
    Seg (h.modify? ps.getLast? (setNext nx')) pv a ps nx' z := by
  rcases List.eq_nil_or_concat ps with rfl | ⟨L, p, rfl⟩
  · exact hs
  · simp only [List.concat_eq_append] at hs hnd ⊢
    rw [List.getLast?_concat, Heap.modify?_some]
    obtain ⟨x, hx, hpv, _, hL, hR⟩ := hs.split
    have hpL : p ∉ L := by
      intro hp
      exact (List.nodup_append.mp hnd).2.2 p hp p (by simp) rfl
    refine Seg.join (x := setNext nx' x) (by simp [hx]) ?_ ?_ ?_ ?_
    · rw [prev_setNext, hpv]
    · simp [next_setNext]
    · rw [lo_setNext]
      refine hL.congr_get fun q hq => h.get_modify_ne _ ?_
      intro heq
      exact hpL (heq ▸ hq)
    · rw [lo_setNext, len_setNext]
      exact hR

/-- Pointing the first node at another left neighbour. -/
theorem Seg.setPrev_head (hs : Seg h pv a ps nx z) (hnd : ps.Nodup)
    (pv' : Option Nat) :
    Seg (h.modify? ps.head? (setPrev pv')) pv' a ps nx z := by
  cases ps with
  | nil => exact hs
  | cons p R =>
      obtain ⟨x, hx, _, hnx, hlo, hR⟩ := hs
      simp only [List.head?_cons, Heap.modify?_some]
      refine ⟨setPrev pv' x, by simp [hx], prev_setPrev .., ?_, ?_, ?_⟩
      · rw [next_setPrev, hnx]
      · rw [lo_setPrev, hlo]
      · rw [len_setPrev]
        refine hR.congr_get fun q hq => h.get_modify_ne _ ?_
        intro heq
        exact (List.nodup_cons.mp hnd).1 (heq ▸ hq)

/-! ## Editing a chain -/

section Edit

variable {L R : List Nat} {p q : Nat}

/-- `p` absorbs its left neighbour `q`. -/
theorem Seg.absorbPrev {x y w : α} (hs : Seg h none a (L ++ q :: p :: R) nx z)
    (hnd : (L ++ q :: p :: R).Nodup) (hq : h.get q = some y) (hp : h.get p = some x)
    (hw : h'.get p = some w) (hpv : prev w = prev y) (hnx : next w = next x)
    (hlo : lo w = lo y) (hlen : len w = len y + len x)
    (hL : ∀ r ∈ L, h'.get r = (h.modify? L.getLast? (setNext (some p))).get r)
    (hR : ∀ r ∈ R, h'.get r = h.get r) :
    Seg h' none a (L ++ p :: R) nx z := by
  obtain ⟨y', hy', hpvy, _, hsL, x', hx', hpvx, hnxx, hlox, hsR⟩ := hs.split
  rw [hq] at hy'
  cases hy'
  rw [hp] at hx'
  cases hx'
  have hndL : L.Nodup := (List.nodup_append.mp hnd).1
  refine Seg.join hw (by rw [hpv, hpvy]) (by rw [hnx, hnxx]) ?_ ?_
  · rw [hlo]
    exact (hsL.setNext_last hndL (some p)).congr_get hL
  · rw [hlo, hlen, ← Nat.add_assoc]
    exact hsR.congr_get hR

/-- `p` absorbs its right neighbour `q`. -/
theorem Seg.absorbNext {x y w : α} (hs : Seg h pv a (L ++ p :: q :: R) none z)
    (hnd : (L ++ p :: q :: R).Nodup) (hp : h.get p = some x) (hq : h.get q = some y)
    (hw : h'.get p = some w) (hpv : prev w = prev x) (hnx : next w = next y)
    (hlo : lo w = lo x) (hlen : len w = len x + len y)
    (hL : ∀ r ∈ L, h'.get r = h.get r)
    (hR : ∀ r ∈ R, h'.get r = (h.modify? R.head? (setPrev (some p))).get r) :
    Seg h' pv a (L ++ p :: R) none z := by
  obtain ⟨x', hx', hpvx, _, hsL, y', hy', hpvy, hnxy, hloy, hsR⟩ := hs.split
  rw [hp] at hx'
  cases hx'
  rw [hq] at hy'
  cases hy'
  have hndR : R.Nodup := by
    have := (List.nodup_append.mp hnd).2.1
    exact (List.nodup_cons.mp (List.nodup_cons.mp this).2).2
  refine Seg.join hw (by rw [hpv, hpvx]) (by rw [hnx, hnxy]) ?_ ?_
  · rw [hlo]
    exact hsL.congr_get hL
  · rw [hlo, hlen, ← Nat.add_assoc]
    exact (hsR.setPrev_head hndR (some p)).congr_get hR

/-- `p` gives its end to a new right neighbour `q`. -/
theorem Seg.insertAfter {x w y : α} (hs : Seg h pv a (L ++ p :: R) none z)
    (hnd : (L ++ p :: R).Nodup) (hp : h.get p = some x)
    (hw : h'.get p = some w) (hpv : prev w = prev x) (hnx : next w = some q)
    (hlo : lo w = lo x) (hy : h'.get q = some y) (hpvy : prev y = some p)
    (hnxy : next y = next x) (hloy : lo y = lo w + len w)
    (hleny : len w + len y = len x)
    (hL : ∀ r ∈ L, h'.get r = h.get r)
    (hR : ∀ r ∈ R, h'.get r = (h.modify? R.head? (setPrev (some q))).get r) :
    Seg h' pv a (L ++ p :: q :: R) none z := by
  obtain ⟨x', hx', hpvx, hnxx, hsL, hsR⟩ := hs.split
  rw [hp] at hx'
  cases hx'
  have hndR : R.Nodup :=
    (List.nodup_cons.mp (List.nodup_append.mp hnd).2.1).2
  refine Seg.join hw (by rw [hpv, hpvx]) (by rw [hnx]; rfl) ?_ ?_
  · rw [hlo]
    exact hsL.congr_get hL
  · refine ⟨y, hy, hpvy, by rw [hnxy, hnxx], hloy, ?_⟩
    rw [hlo, Nat.add_assoc, hleny]
    exact (hsR.setPrev_head hndR (some q)).congr_get hR

end Edit

end Chain

end Ccbase.Lib
