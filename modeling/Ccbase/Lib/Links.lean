import Mathlib.Data.List.Basic
import Mathlib.Data.List.Nodup

/-!
# Singly linked lists

`Links next a ps z` says that the links lead from `a` to the nodes `ps` in their
order, and that the last link is `z`. What `a` is depends on the list: a dummy, a
header, or the first node.

The rules for edits are about any links that agree with the old ones elsewhere.
-/

namespace Ccbase.Lib

variable {α : Type}

def Links (next : α → Option α) : α → List α → Option α → Prop
  | a, [], z => next a = z
  | a, p :: ps, z => next a = some p ∧ Links next p ps z

namespace Links

variable {next next' : α → Option α} {a : α} {ps qs : List α} {z z' : Option α}

theorem congr (h : Links next a ps z) (heq : ∀ p ∈ a :: ps, next' p = next p) :
    Links next' a ps z := by
  induction ps generalizing a with
  | nil => exact (heq a (by simp)).trans h
  | cons p ps ih =>
      obtain ⟨hfirst, hrest⟩ := h
      exact ⟨(heq a (by simp)).trans hfirst, ih hrest fun q hq => heq q (List.mem_cons_of_mem a hq)⟩

theorem append_iff {q : α} :
    Links next a (ps ++ q :: qs) z ↔ Links next a ps (some q) ∧ Links next q qs z := by
  induction ps generalizing a with
  | nil => rfl
  | cons p ps ih =>
      show _ ∧ Links next p (ps ++ q :: qs) z ↔ (_ ∧ _) ∧ _
      rw [ih, and_assoc]

/-- The link of the last node. -/
theorem last (h : Links next a ps z) : next (ps.getLastD a) = z := by
  induction ps generalizing a with
  | nil => exact h
  | cons p ps ih =>
      rw [List.getLastD_cons]
      exact ih h.2

/-- The first link. -/
theorem first (h : Links next a ps z) : next a = ps.head?.or z := by
  cases ps with
  | nil => exact h
  | cons p ps => exact h.1

/-- The link of a node of the list. -/
theorem mem_next {p : α} (h : Links next a (ps ++ p :: qs) z) : next p = qs.head?.or z :=
  (append_iff.mp h).2.first

/-- Links lead to one list only. -/
theorem unique (h : Links next a ps none) (h' : Links next a qs none) : ps = qs := by
  induction ps generalizing a qs with
  | nil =>
      cases qs with
      | nil => rfl
      | cons q qs =>
          have hnone : next a = none := h
          cases hnone.symm.trans h'.1
  | cons p ps ih =>
      cases qs with
      | nil =>
          have hnone : next a = none := h'
          cases hnone.symm.trans h.1
      | cons q qs =>
          have hpq : some p = some q := h.1.symm.trans h'.1
          cases hpq
          rw [ih h.2 h'.2]

/-- Only the last node has the link at the end. -/
theorem getLastD_of_next (h : Links next a ps none) {p : α} (hp : p ∈ a :: ps)
    (hnext : next p = none) : p = ps.getLastD a := by
  induction ps generalizing a with
  | nil => exact List.mem_singleton.mp hp
  | cons q ps ih =>
      rw [List.getLastD_cons]
      rcases List.mem_cons.mp hp with rfl | hp
      · rw [h.1] at hnext
        cases hnext
      · exact ih h.2 hp

theorem getLastD_mem : ps.getLastD a ∈ a :: ps := by
  cases ps with
  | nil => exact List.mem_singleton.mpr rfl
  | cons p ps =>
      rw [List.getLastD_cons]
      exact List.mem_cons_of_mem a List.getLastD_mem_cons

/-- The links from a node on. -/
theorem suffix (h : Links next a ps z) {p : α} (hp : p ∈ a :: ps) :
    ∃ qs, Links next p qs z ∧ qs.getLastD p = ps.getLastD a ∧ qs <:+ ps := by
  induction ps generalizing a with
  | nil =>
      rw [List.mem_singleton.mp hp]
      exact ⟨[], h, rfl, List.suffix_rfl⟩
  | cons q ps ih =>
      rcases List.mem_cons.mp hp with rfl | hp
      · exact ⟨q :: ps, h, rfl, List.suffix_rfl⟩
      · obtain ⟨qs, hqs, hlast, hsuffix⟩ := ih h.2 hp
        exact ⟨qs, hqs, by rw [hlast, List.getLastD_cons], hsuffix.trans (List.suffix_cons q ps)⟩

/-- The first part of a list. -/
theorem take (h : Links next a (ps ++ qs) none) : Links next a ps qs.head? := by
  cases qs with
  | nil =>
      rw [List.append_nil] at h
      exact h
  | cons q qs => exact (append_iff.mp h).1

/-- The last link is set. -/
theorem set_last (h : Links next a ps z) (hnd : (a :: ps).Nodup)
    (hlast : next' (ps.getLastD a) = z')
    (hrest : ∀ p ∈ a :: ps, p ≠ ps.getLastD a → next' p = next p) : Links next' a ps z' := by
  induction ps generalizing a with
  | nil => exact hlast
  | cons p ps ih =>
      rw [List.getLastD_cons] at hlast hrest
      have hne : a ≠ ps.getLastD p := by
        intro heq
        have hmem : ps.getLastD p ∈ p :: ps := getLastD_mem
        exact (List.nodup_cons.mp hnd).1 (heq ▸ hmem)
      exact ⟨(hrest a (by simp) hne).trans h.1, ih h.2 (List.nodup_cons.mp hnd).2 hlast
        fun q hq => hrest q (List.mem_cons_of_mem a hq)⟩

/-- A node is put between two others. -/
theorem insert {q : α} (h : Links next a (ps ++ qs) z) (hnd : (a :: (ps ++ qs)).Nodup)
    (hlast : next' (ps.getLastD a) = some q) (hq : next' q = next (ps.getLastD a))
    (hrest : ∀ p ∈ a :: (ps ++ qs), p ≠ ps.getLastD a → next' p = next p) :
    Links next' a (ps ++ q :: qs) z := by
  have hnd' : (a :: ps).Nodup := hnd.sublist (by simp)
  have hrest' : ∀ p ∈ a :: ps, p ≠ ps.getLastD a → next' p = next p := by
    intro p hp
    refine hrest p ?_
    rcases List.mem_cons.mp hp with rfl | hp
    · exact List.mem_cons_self
    · exact List.mem_cons_of_mem a (List.mem_append_left qs hp)
  cases qs with
  | nil =>
      rw [List.append_nil] at h
      exact append_iff.mpr ⟨h.set_last hnd' hlast hrest', hq.trans h.last⟩
  | cons r rs =>
      obtain ⟨hleft, hright⟩ := append_iff.mp h
      refine append_iff.mpr ⟨hleft.set_last hnd' hlast hrest', hq.trans hleft.last, ?_⟩
      refine hright.congr fun p hp => hrest p ?_ ?_
      · exact List.mem_cons_of_mem a (List.mem_append_right ps hp)
      · rintro rfl
        have hmem : ps.getLastD a ∈ a :: ps := getLastD_mem
        rw [← List.cons_append] at hnd
        exact (List.nodup_append.mp hnd).2.2 _ hmem _ hp rfl

/-- A node is taken out. -/
theorem remove {q : α} (h : Links next a (ps ++ q :: qs) z) (hnd : (a :: (ps ++ q :: qs)).Nodup)
    (hlast : next' (ps.getLastD a) = next q)
    (hrest : ∀ p ∈ a :: (ps ++ qs), p ≠ ps.getLastD a → next' p = next p) :
    Links next' a (ps ++ qs) z := by
  have hnd' : (a :: ps).Nodup := hnd.sublist (by simp)
  obtain ⟨hleft, hright⟩ := append_iff.mp h
  have hrest' : ∀ p ∈ a :: ps, p ≠ ps.getLastD a → next' p = next p := by
    intro p hp
    refine hrest p ?_
    rcases List.mem_cons.mp hp with rfl | hp
    · exact List.mem_cons_self
    · exact List.mem_cons_of_mem a (List.mem_append_left qs hp)
  cases qs with
  | nil =>
      rw [List.append_nil]
      exact hleft.set_last hnd' (hlast.trans hright) hrest'
  | cons r rs =>
      refine append_iff.mpr ⟨hleft.set_last hnd' (hlast.trans hright.1) hrest', ?_⟩
      refine hright.2.congr fun p hp => hrest p ?_ ?_
      · exact List.mem_cons_of_mem a (List.mem_append_right ps hp)
      · rintro rfl
        have hmem : ps.getLastD a ∈ a :: ps := getLastD_mem
        rw [← List.cons_append] at hnd
        exact (List.nodup_append.mp hnd).2.2 _ hmem _ (List.mem_cons_of_mem q hp) rfl

/-- A node is put at the end. -/
theorem push {q : α} (h : Links next a ps none) (hnd : (a :: ps).Nodup)
    (hlast : next' (ps.getLastD a) = some q) (hq : next' q = none)
    (hrest : ∀ p ∈ a :: ps, p ≠ ps.getLastD a → next' p = next p) :
    Links next' a (ps ++ [q]) none :=
  append_iff.mpr ⟨h.set_last hnd hlast hrest, hq⟩

end Links

/-! ## Links backwards -/

/-- The links `prev` lead from each of the nodes to the one in front of it, and from the first
of them to `a`. -/
def BackLinks (prev : α → Option α) : α → List α → Prop
  | _, [] => True
  | a, p :: ps => prev p = some a ∧ BackLinks prev p ps

namespace BackLinks

variable {prev prev' : α → Option α} {a : α} {ps qs : List α}

theorem congr (h : BackLinks prev a ps) (heq : ∀ p ∈ ps, prev' p = prev p) :
    BackLinks prev' a ps := by
  induction ps generalizing a with
  | nil => trivial
  | cons p ps ih =>
      obtain ⟨hfirst, hrest⟩ := h
      exact ⟨(heq p List.mem_cons_self).trans hfirst,
        ih hrest fun q hq => heq q (List.mem_cons_of_mem p hq)⟩

theorem append_iff : BackLinks prev a (ps ++ qs) ↔
    BackLinks prev a ps ∧ BackLinks prev (ps.getLastD a) qs := by
  induction ps generalizing a with
  | nil => exact (and_iff_right trivial).symm
  | cons p ps ih =>
      rw [List.getLastD_cons]
      show _ ∧ BackLinks prev p (ps ++ qs) ↔ (_ ∧ _) ∧ _
      rw [ih, and_assoc]

end BackLinks

end Ccbase.Lib
