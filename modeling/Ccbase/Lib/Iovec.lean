import Mathlib.Logic.Function.Basic
import Mathlib.Data.List.Basic
import Mathlib.Data.List.Nodup

/-!
# Vectors of buffers

An iovec is the list of the cells it covers: their contents when it is read,
their addresses when it is written. Adding `k` to its base and taking `k` from
its length drops `k` cells. A cursor over an array of iovecs stands for the
cells that are still to come, `vs.flatten`, and an operation that moves the
cursor by `n` is right if it drops `n` of them. `store` writes bytes to cells of
a memory.
-/

namespace Ccbase.Lib.Iovec

variable {α β : Type}

/-- The first iovec that the amount `n` does not cover, without the part of it
that `n` covers; `covers len tmp` says if an iovec of length `len` is covered
when `tmp` cells have been counted before it. The iovec is nowhere if all are
covered. -/
def advance (covers : Nat → Nat → Bool) (n : Nat) : List (List α) → Nat → Option (List (List α))
  | [], _ => none
  | v :: vs, tmp =>
      if covers v.length tmp then advance covers n vs (tmp + v.length)
      else some (v.drop (n - tmp) :: vs)

/-- A cursor that stops in the iovec where the amount ends. -/
theorem flatten_advance (covers : Nat → Nat → Bool) (n : Nat)
    (hyes : ∀ len tmp, covers len tmp = true → tmp + len ≤ n)
    (hno : ∀ len tmp, covers len tmp = false → n ≤ tmp + len) :
    ∀ {vs : List (List α)} {tmp : Nat}, tmp ≤ n → n < tmp + vs.flatten.length →
      ∃ vs', advance covers n vs tmp = some vs' ∧
        vs'.flatten = vs.flatten.drop (n - tmp) := by
  intro vs
  induction vs with
  | nil =>
      intro tmp hle hlt
      simp only [List.flatten_nil, List.length_nil] at hlt
      omega
  | cons v vs ih =>
      intro tmp hle hlt
      rw [List.flatten_cons, List.length_append] at hlt
      simp only [advance]
      cases hc : covers v.length tmp with
      | true =>
          have hcov := hyes _ _ hc
          obtain ⟨vs', hadv, hflat⟩ := ih hcov (by omega)
          refine ⟨vs', by simpa using hadv, ?_⟩
          rw [hflat, List.flatten_cons, List.drop_append,
            List.drop_eq_nil_of_le (show v.length ≤ n - tmp by omega), List.nil_append]
          congr 1
          omega
      | false =>
          have hcov := hno _ _ hc
          refine ⟨v.drop (n - tmp) :: vs, by simp, ?_⟩
          rw [List.flatten_cons, List.flatten_cons, List.drop_append,
            show n - tmp - v.length = 0 by omega, List.drop_zero]

/-- Writing bytes to cells, one after the other. -/
def store (mem : Nat → β) : List Nat → List β → Nat → β
  | a :: as, b :: bs => store (Function.update mem a b) as bs
  | _, _ => mem

@[simp] theorem store_nil (mem : Nat → β) (as : List Nat) : store mem as [] = mem := by
  cases as <;> rfl

theorem store_append {xs : List β} (ys : List β) :
    ∀ {mem : Nat → β} {as : List Nat}, xs.length ≤ as.length →
      store mem as (xs ++ ys) = store (store mem as xs) (as.drop xs.length) ys := by
  induction xs with
  | nil =>
      intro mem as _
      simp
  | cons x xs ih =>
      intro mem as hlen
      cases as with
      | nil => simp at hlen
      | cons a as => exact ih (Nat.le_of_succ_le_succ hlen)

/-- Cells behind the last byte are not looked at. -/
theorem store_append_left {bs : List β} (more : List Nat) :
    ∀ {mem : Nat → β} {as : List Nat}, bs.length ≤ as.length →
      store mem (as ++ more) bs = store mem as bs := by
  induction bs with
  | nil =>
      intro mem as _
      rw [store_nil, store_nil]
  | cons b bs ih =>
      intro mem as hlen
      cases as with
      | nil => simp at hlen
      | cons a as => exact ih (Nat.le_of_succ_le_succ hlen)

/-- Cells that are not named keep their contents. -/
theorem store_of_notMem {bs : List β} : ∀ {mem : Nat → β} {as : List Nat} {a : Nat},
    a ∉ as → store mem as bs a = mem a := by
  induction bs with
  | nil => simp
  | cons b bs ih =>
      intro mem as a ha
      cases as with
      | nil => rfl
      | cons x as =>
          simp only [List.mem_cons, not_or] at ha
          rw [store, ih ha.2, Function.update_of_ne ha.1]

/-- Reading back what has been written. -/
theorem map_store {bs : List β} : ∀ {mem : Nat → β} {as : List Nat}, as.Nodup →
    as.length = bs.length → as.map (store mem as bs) = bs := by
  induction bs with
  | nil =>
      intro mem as _ hlen
      rw [List.length_nil, List.length_eq_zero_iff] at hlen
      rw [hlen]
      rfl
  | cons b bs ih =>
      intro mem as hnodup hlen
      cases as with
      | nil => simp at hlen
      | cons a as =>
          obtain ⟨hnot, hnodup⟩ := List.nodup_cons.mp hnodup
          rw [List.map_cons, store, ih hnodup (Nat.succ.inj hlen), store_of_notMem hnot,
            Function.update_self]

/-- Writing the next `n` bytes behind the first `got`. -/
theorem map_take_store {mem : Nat → β} {cells : List Nat} {bytes : List β} {got n : Nat}
    (hnodup : cells.Nodup) (hgot : (cells.take got).map mem = bytes.take got)
    (hcells : got + n ≤ cells.length) (hbytes : got + n ≤ bytes.length) :
    (cells.take (got + n)).map (store mem (cells.drop got) ((bytes.drop got).take n)) =
      bytes.take (got + n) := by
  have hsplit : (cells.take got ++ cells.drop got).Nodup := by rwa [List.take_append_drop]
  have hnext : ((cells.drop got).take n).Nodup :=
    ((List.take_sublist _ _).trans (List.drop_sublist _ _)).nodup hnodup
  have hlen : ((bytes.drop got).take n).length = n := by
    rw [List.length_take, List.length_drop]
    omega
  have hlen' : ((cells.drop got).take n).length = n := by
    rw [List.length_take, List.length_drop]
    omega
  rw [List.take_add, List.map_append, List.take_add]
  congr 1
  · rw [← hgot]
    refine List.map_congr_left ?_
    intro a ha
    exact store_of_notMem (List.disjoint_of_nodup_append hsplit ha)
  · have hfirst : store mem (cells.drop got) ((bytes.drop got).take n) =
        store mem ((cells.drop got).take n) ((bytes.drop got).take n) := by
      nth_rewrite 1 [← List.take_append_drop n (cells.drop got)]
      exact store_append_left _ (by omega)
    rw [hfirst]
    exact map_store hnext (by omega)

end Ccbase.Lib.Iovec
