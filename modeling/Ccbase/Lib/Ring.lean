import Mathlib.Data.Set.Card
import Mathlib.Data.Finset.Card
import Mathlib.Tactic.Common

/-!
# Tables with linear probing

The slots of a table are a ring. `slot cap h j` is the slot `j` steps behind `h`,
and `dist cap h s` is how many steps it takes from `h` to `s`; both are given by
cases, so that what is needed of them is linear arithmetic.

A table stands for a finite map, which is a function to `Option`.
-/

namespace Ccbase.Lib

namespace Ring

/-- The slot behind `h` by `j`. -/
def slot (cap h j : Nat) : Nat := (h + j) % cap

/-- The steps from `h` to `s`. -/
def dist (cap h s : Nat) : Nat := if h ≤ s then s - h else s + cap - h

variable {cap h j s : Nat}

theorem slot_eq (hh : h < cap) (hj : j ≤ cap) :
    slot cap h j = if h + j < cap then h + j else h + j - cap := by
  rw [slot]
  split
  · exact Nat.mod_eq_of_lt ‹_›
  · rw [Nat.mod_eq_sub_mod (by omega)]
    exact Nat.mod_eq_of_lt (by omega)

theorem slot_lt (hcap : 0 < cap) : slot cap h j < cap := Nat.mod_lt _ hcap

theorem slot_zero (hh : h < cap) : slot cap h 0 = h := Nat.mod_eq_of_lt hh

/-- The next slot. -/
theorem slot_succ : (slot cap h j + 1) % cap = slot cap h (j + 1) := by
  rw [slot, slot, Nat.mod_add_mod, Nat.add_assoc]

theorem slot_slot {i : Nat} : slot cap (slot cap h j) i = slot cap h (j + i) := by
  rw [slot, slot, slot, Nat.mod_add_mod, Nat.add_assoc]

theorem dist_lt (hh : h < cap) (hs : s < cap) : dist cap h s < cap := by
  rw [dist]
  split <;> omega

theorem slot_dist (hh : h < cap) (hs : s < cap) : slot cap h (dist cap h s) = s := by
  have hlt := dist_lt hh hs
  rw [slot_eq hh hlt.le]
  rw [dist] at hlt ⊢
  split <;> split <;> omega

theorem dist_slot (hh : h < cap) (hj : j < cap) : dist cap h (slot cap h j) = j := by
  rw [slot_eq hh hj.le, dist]
  split <;> split <;> omega

theorem slot_inj (hh : h < cap) {i : Nat} (hi : i < cap) (hj : j < cap)
    (heq : slot cap h i = slot cap h j) : i = j := by
  rw [← dist_slot hh hi, heq, dist_slot hh hj]

theorem dist_self : dist cap h h = 0 := by
  rw [dist, if_pos (Nat.le_refl h), Nat.sub_self]

/-- A slot that is not the home is one step further from it than the slot before. -/
theorem dist_succ (hh : h < cap) (hs : s < cap) (hne : slot cap s 1 ≠ h) :
    dist cap h (slot cap s 1) = dist cap h s + 1 := by
  rw [slot_eq hs (by omega)] at hne ⊢
  by_cases hlast : s + 1 < cap
  · rw [if_pos hlast] at hne ⊢
    rw [dist, dist]
    split <;> split <;> omega
  · rw [if_neg hlast] at hne ⊢
    rw [dist, dist]
    split <;> split <;> omega

theorem slot_cap (hh : h < cap) : slot cap h cap = h := by
  rw [slot_eq hh (Nat.le_refl cap)]
  split <;> omega

end Ring

/-! ## The map of a table -/

section Table

variable {K V : Type}

/-- The table, given by its occupied slots and their entries, stands for `f`. -/
def StandsFor (cap : Nat) (occ : Nat → Bool) (entry : Nat → K × V) (f : K → Option V) : Prop :=
  ∀ k v, f k = some v ↔ ∃ s < cap, occ s = true ∧ entry s = (k, v)

/-- Each key is in one slot. -/
def DistinctKeys (cap : Nat) (occ : Nat → Bool) (entry : Nat → K × V) : Prop :=
  ∀ s < cap, ∀ s' < cap, occ s = true → occ s' = true → (entry s).1 = (entry s').1 → s = s'

/-- How many slots are occupied. -/
def occupancy (cap : Nat) (occ : Nat → Bool) : Nat :=
  ((Finset.range cap).filter fun s => occ s = true).card

variable {cap : Nat} {occ : Nat → Bool} {entry : Nat → K × V} {f : K → Option V}

theorem ne_none_iff (h : StandsFor cap occ entry f) (k : K) :
    f k ≠ none ↔ ∃ s < cap, occ s = true ∧ (entry s).1 = k := by
  rw [Option.ne_none_iff_exists']
  constructor
  · rintro ⟨v, hv⟩
    obtain ⟨s, hs, hocc, he⟩ := (h k v).mp hv
    exact ⟨s, hs, hocc, by rw [he]⟩
  · rintro ⟨s, hs, hocc, rfl⟩
    exact ⟨(entry s).2, (h _ _).mpr ⟨s, hs, hocc, rfl⟩⟩

theorem StandsFor.unique {g : K → Option V} (h : StandsFor cap occ entry f)
    (h' : StandsFor cap occ entry g) : f = g := by
  funext k
  refine Option.ext fun v => ?_
  rw [h k v, h' k v]

/-- As many keys are present as slots are occupied. -/
theorem ncard_present (hdistinct : DistinctKeys cap occ entry) (h : StandsFor cap occ entry f) :
    {k | f k ≠ none}.ncard = occupancy cap occ := by
  have himage : {k | f k ≠ none} =
      (fun s => (entry s).1) '' (((Finset.range cap).filter fun s => occ s = true) : Set Nat) := by
    ext k
    simp only [Set.mem_ofPred_eq, ne_none_iff h, Set.mem_image, Finset.mem_coe, Finset.mem_filter,
      Finset.mem_range, and_assoc]
  have hinj : Set.InjOn (fun s => (entry s).1)
      (((Finset.range cap).filter fun s => occ s = true) : Set Nat) := by
    intro s hs s' hs' heq
    simp only [Finset.mem_coe, Finset.mem_filter, Finset.mem_range] at hs hs'
    exact hdistinct s hs.1 s' hs'.1 hs.2 hs'.2 heq
  rw [himage, hinj.ncard_image, Set.ncard_coe_finset]
  rfl

/-- A table that is not full has a free slot. -/
theorem exists_free (h : occupancy cap occ < cap) : ∃ s < cap, occ s = false := by
  by_contra hnone
  have hall : (Finset.range cap).filter (fun s => occ s = true) = Finset.range cap := by
    refine Finset.filter_true_of_mem fun s hs => ?_
    by_contra hs'
    exact hnone ⟨s, Finset.mem_range.mp hs, by simpa using hs'⟩
  rw [occupancy, hall, Finset.card_range] at h
  omega

theorem occupancy_le : occupancy cap occ ≤ cap := by
  have := Finset.card_filter_le (Finset.range cap) fun s => occ s = true
  rwa [Finset.card_range] at this

theorem occupancy_none (h : ∀ s < cap, occ s = false) : occupancy cap occ = 0 := by
  rw [occupancy, Finset.card_eq_zero]
  refine Finset.filter_false_of_mem fun s hs => ?_
  rw [h s (Finset.mem_range.mp hs)]
  decide

/-- One more slot is occupied. -/
theorem occupancy_set {s : Nat} (hs : s < cap) (hfree : occ s = false) :
    occupancy cap (Function.update occ s true) = occupancy cap occ + 1 := by
  have hinsert : (Finset.range cap).filter (fun i => Function.update occ s true i = true) =
      insert s ((Finset.range cap).filter fun i => occ i = true) := by
    ext i
    simp only [Finset.mem_filter, Finset.mem_range, Finset.mem_insert]
    by_cases hi : i = s
    · subst hi
      simp [hs]
    · simp [hi]
  rw [occupancy, hinsert, Finset.card_insert_of_notMem (by simp [hfree])]
  rfl

/-- One slot less is occupied. -/
theorem occupancy_unset {s : Nat} (hs : s < cap) (hocc : occ s = true) :
    occupancy cap (Function.update occ s false) + 1 = occupancy cap occ := by
  have hset : occupancy cap (Function.update (Function.update occ s false) s true) =
      occupancy cap (Function.update occ s false) + 1 := occupancy_set hs (by simp)
  rw [Function.update_idem, ← hocc, Function.update_eq_self] at hset
  exact hset.symm

/-- A slot is cleared. -/
theorem DistinctKeys.unset (h : DistinctKeys cap occ entry) (i : Nat) :
    DistinctKeys cap (Function.update occ i false) entry := by
  have hold : ∀ {s : Nat}, Function.update occ i false s = true → occ s = true := by
    intro s hs
    by_cases hsi : s = i
    · rw [hsi, Function.update_self] at hs
      cases hs
    · rwa [Function.update_of_ne hsi] at hs
  intro s hs s' hs' hocc hocc' heq
  exact h s hs s' hs' (hold hocc) (hold hocc') heq

theorem StandsFor.unset [DecidableEq K] (hdistinct : DistinctKeys cap occ entry)
    (h : StandsFor cap occ entry f) {i : Nat} (hi : i < cap) (hocc : occ i = true) :
    StandsFor cap (Function.update occ i false) entry (Function.update f (entry i).1 none) := by
  intro k v
  have hold : ∀ {s : Nat}, Function.update occ i false s = true ↔ s ≠ i ∧ occ s = true := by
    intro s
    by_cases hsi : s = i
    · simp [hsi]
    · simp [hsi]
  by_cases hk : k = (entry i).1
  · rw [hk, Function.update_self]
    refine ⟨fun h => absurd h (by simp), ?_⟩
    rintro ⟨s, hs, hsocc, he⟩
    obtain ⟨hsi, hsocc⟩ := hold.mp hsocc
    exact absurd (hdistinct s hs i hi hsocc hocc (by rw [he])) hsi
  · rw [Function.update_of_ne hk, h k v]
    constructor
    · rintro ⟨s, hs, hsocc, he⟩
      refine ⟨s, hs, hold.mpr ⟨?_, hsocc⟩, he⟩
      rintro rfl
      exact hk (by rw [he])
    · rintro ⟨s, hs, hsocc, he⟩
      exact ⟨s, hs, (hold.mp hsocc).2, he⟩

/-- A free slot gets a key that is not in the table. -/
theorem DistinctKeys.set (h : DistinctKeys cap occ entry) {i : Nat} {k : K}
    (habsent : ∀ s < cap, s ≠ i → occ s = true → (entry s).1 ≠ k) (v : V) :
    DistinctKeys cap (Function.update occ i true) (Function.update entry i (k, v)) := by
  intro s hs s' hs' hocc hocc' heq
  by_cases hsi : s = i
  · by_cases hsi' : s' = i
    · rw [hsi, hsi']
    · rw [Function.update_of_ne hsi'] at hocc' heq
      rw [hsi, Function.update_self] at heq
      exact absurd heq.symm (habsent s' hs' hsi' hocc')
  · rw [Function.update_of_ne hsi] at hocc heq
    by_cases hsi' : s' = i
    · rw [hsi', Function.update_self] at heq
      exact absurd heq (habsent s hs hsi hocc)
    · rw [Function.update_of_ne hsi'] at hocc' heq
      exact h s hs s' hs' hocc hocc' heq

theorem StandsFor.set [DecidableEq K] (h : StandsFor cap occ entry f) {i : Nat} (hi : i < cap)
    (hfree : occ i = false) {k : K} (hk : f k = none) (v : V) :
    StandsFor cap (Function.update occ i true) (Function.update entry i (k, v))
      (Function.update f k (some v)) := by
  intro k' v'
  have hsplit : (∃ s < cap, Function.update occ i true s = true ∧
      Function.update entry i (k, v) s = (k', v')) ↔ (k, v) = (k', v') ∨ f k' = some v' := by
    rw [h k' v']
    constructor
    · rintro ⟨s, hs, hsocc, he⟩
      by_cases hsi : s = i
      · rw [hsi, Function.update_self] at he
        exact Or.inl he
      · rw [Function.update_of_ne hsi] at hsocc he
        exact Or.inr ⟨s, hs, hsocc, he⟩
    · rintro (he | ⟨s, hs, hsocc, he⟩)
      · exact ⟨i, hi, Function.update_self .., by rw [Function.update_self, he]⟩
      · have hsi : s ≠ i := by
          rintro rfl
          rw [hfree] at hsocc
          cases hsocc
        exact ⟨s, hs, by rwa [Function.update_of_ne hsi], by rwa [Function.update_of_ne hsi]⟩
  rw [hsplit]
  by_cases hkk : k' = k
  · rw [hkk, Function.update_self, hk]
    simp
  · rw [Function.update_of_ne hkk]
    simp [Ne.symm hkk]

end Table

end Ccbase.Lib
