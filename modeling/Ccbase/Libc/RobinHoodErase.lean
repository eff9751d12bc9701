import Ccbase.Libc.RobinHoodInsert

/-!
# Deletion from a `RobinHoodHashMap`, and whole runs

The entries behind an erased one move back by a slot while their stored distance is
positive. As this distance may be too large, an entry can be moved in front of its
home, where no search begins; `Homeward` says that this does not happen.
-/

namespace Ccbase.Libc

open Ccbase.Lib

variable {K V : Type}

namespace RobinHoodHashMap

variable {hasher : K → Nat} {m : RobinHoodHashMap K V}

/-- The table while entries are shifted: slot `i` is free, and the way to an entry may
lead over it. -/
structure Hole (hasher : K → Nat) (m : RobinHoodHashMap K V) (i : Nat) : Prop where
  lt : i < m.capacity
  free : m.occ i = false
  stored : ∀ s < m.capacity, m.occ s = true →
    (Ring.dist m.capacity (m.home hasher s) s : Int) ≤ (m.table s).probeDistance
  reach : ∀ s < m.capacity, m.occ s = true →
    ∀ t < Ring.dist m.capacity (m.home hasher s) s,
      m.Passes (m.home hasher s) t ∨ Ring.slot m.capacity (m.home hasher s) t = i
  distinct : DistinctKeys m.capacity m.occ m.pair

/-- Where the way to an entry leads over the hole, it goes on to the next slot, which
is not home of any entry there. -/
theorem Hole.next {i : Nat} (hhole : Hole hasher m i) {s t : Nat} (hs : s < m.capacity)
    (hocc : m.occ s = true) (ht : t < Ring.dist m.capacity (m.home hasher s) s)
    (hslot : Ring.slot m.capacity (m.home hasher s) t = i) :
    Ring.slot m.capacity (m.home hasher s) (t + 1) = m.nextIndex i ∧
      ((t + 1 : Nat) : Int) ≤ (m.table (m.nextIndex i)).probeDistance ∧
      m.occ (m.nextIndex i) = true := by
  have hpos : 0 < m.capacity := by omega
  have hh : m.home hasher s < m.capacity := home_lt hpos s
  have hlt := Ring.dist_lt hh hs
  have hsucc : Ring.slot m.capacity (m.home hasher s) (t + 1) = m.nextIndex i := by
    rw [← hslot, nextIndex_slot]
  refine ⟨hsucc, ?_⟩
  by_cases hend : t + 1 = Ring.dist m.capacity (m.home hasher s) s
  · rw [hend, Ring.slot_dist hh hs] at hsucc
    rw [← hsucc, hend]
    exact ⟨hhole.stored s hs hocc, hocc⟩
  · rcases hhole.reach s hs hocc (t + 1) (by omega) with ⟨hpocc, hpass⟩ | hsame
    · rw [hsucc] at hpocc hpass
      exact ⟨hpass, hpocc⟩
    · have := Ring.slot_inj hh (by omega) (by omega) (hslot.trans hsame.symm)
      omega

theorem vacate_occ (i : Nat) : (m.vacate i).occ = Function.update m.occ i false := setEntry_occ i _

theorem vacate_pair (i : Nat) : (m.vacate i).pair = m.pair := by
  rw [show (m.vacate i).pair = Function.update m.pair i _ from setEntry_pair i _]
  exact Function.update_eq_self i m.pair

theorem Reachable.vacate (hinv : Reachable hasher m) {i : Nat} (hi : i < m.capacity) :
    Hole hasher (m.vacate i) i := by
  have hold : ∀ {s : Nat}, s ≠ i → (m.vacate i).table s = m.table s :=
    fun hs => setEntry_table_of_ne hs _
  have hocc := vacate_occ (m := m) i
  have hpair := vacate_pair (m := m) i
  have hkeep : ∀ {s : Nat}, (m.vacate i).occ s = true → s ≠ i ∧ m.occ s = true := by
    intro s hs
    rw [hocc] at hs
    by_cases hsi : s = i
    · rw [hsi, Function.update_self] at hs
      cases hs
    · rw [Function.update_of_ne hsi] at hs
      exact ⟨hsi, hs⟩
  have hhome : ∀ {s : Nat}, s ≠ i → (m.vacate i).home hasher s = m.home hasher s := by
    intro s hs
    show m.hash hasher ((m.vacate i).table s).key = _
    rw [hold hs]
    rfl
  refine ⟨hi, by rw [hocc, Function.update_self], ?_, ?_, ?_⟩
  · intro s hs hsocc
    obtain ⟨hsi, hsocc⟩ := hkeep hsocc
    rw [hhome hsi, hold hsi]
    exact hinv.stored s hs hsocc
  · intro s hs hsocc t ht
    obtain ⟨hsi, hsocc⟩ := hkeep hsocc
    rw [hhome hsi] at ht ⊢
    obtain ⟨hpocc, hpass⟩ := hinv.reach s hs hsocc t ht
    by_cases hslot : Ring.slot m.capacity (m.home hasher s) t = i
    · exact Or.inr hslot
    · refine Or.inl ⟨?_, ?_⟩
      · show ((m.vacate i).table (Ring.slot m.capacity (m.home hasher s) t)).occupied = true
        rw [hold hslot]
        exact hpocc
      · show (t : Int) ≤
          ((m.vacate i).table (Ring.slot m.capacity (m.home hasher s) t)).probeDistance
        rw [hold hslot]
        exact hpass
  · rw [hocc, hpair]
    exact hinv.distinct.unset i

/-- The shift ends where no way leads over the hole. -/
theorem Hole.fill {i : Nat} (hhole : Hole hasher m i) (hend : ¬ m.Shiftable (m.nextIndex i)) :
    Reachable hasher m := by
  refine ⟨by have := hhole.lt; omega, hhole.stored, fun s hs hocc t ht => ?_, hhole.distinct⟩
  rcases hhole.reach s hs hocc t ht with hpass | hslot
  · exact hpass
  · obtain ⟨-, hstored, hnocc⟩ := hhole.next hs hocc ht hslot
    exact absurd ⟨hnocc, by omega⟩ hend

section Shift

variable {i : Nat}

theorem shiftOne_next (m : RobinHoodHashMap K V) (i : Nat) :
    (m.shiftOne i).table (m.nextIndex i) = { m.table (m.nextIndex i) with occupied := false } :=
  Function.update_self ..

theorem shiftOne_hole (hne : m.nextIndex i ≠ i) : (m.shiftOne i).table i =
    { m.table (m.nextIndex i) with
      probeDistance := (m.table (m.nextIndex i)).probeDistance - 1 } := by
  show Function.update (Function.update m.table i _) (m.nextIndex i) _ i = _
  rw [Function.update_of_ne (Ne.symm hne), Function.update_self]

theorem shiftOne_other {s : Nat} (hs : s ≠ i) (hs' : s ≠ m.nextIndex i) :
    (m.shiftOne i).table s = m.table s := by
  show Function.update (Function.update m.table i _) (m.nextIndex i) _ s = _
  rw [Function.update_of_ne hs', Function.update_of_ne hs]

theorem shiftOne_occ (hne : m.nextIndex i ≠ i) (hocc : m.occ (m.nextIndex i) = true) :
    (m.shiftOne i).occ =
      Function.update (Function.update m.occ (m.nextIndex i) false) i true := by
  rw [show (m.shiftOne i).occ = _ from setEntry_occ _ _, setEntry_occ]
  show Function.update (Function.update m.occ i (m.occ (m.nextIndex i))) (m.nextIndex i) false = _
  rw [hocc, Function.update_comm (Ne.symm hne)]

theorem shiftOne_pair (hne : m.nextIndex i ≠ i) :
    (m.shiftOne i).pair = Function.update m.pair i (m.pair (m.nextIndex i)) := by
  rw [show (m.shiftOne i).pair = _ from setEntry_pair _ _, setEntry_pair]
  show Function.update (Function.update m.pair i (m.pair (m.nextIndex i))) (m.nextIndex i)
    (m.pair (m.nextIndex i)) = _
  rw [Function.update_comm (Ne.symm hne), Function.update_eq_self]

theorem nextIndex_ne (hfree : m.occ i = false) (hocc : m.occ (m.nextIndex i) = true) :
    m.nextIndex i ≠ i := by
  intro heq
  rw [heq, hfree] at hocc
  cases hocc

theorem nextIndex_lt (hi : i < m.capacity) : m.nextIndex i < m.capacity :=
  Nat.mod_lt _ (by omega)

/-- A shift of an entry that is not at home moves the hole on. -/
theorem Hole.shiftOne (hhole : Hole hasher m i) (hshift : m.Shiftable (m.nextIndex i))
    (haway : m.home hasher (m.nextIndex i) ≠ m.nextIndex i) :
    Hole hasher (m.shiftOne i) (m.nextIndex i) := by
  have hi := hhole.lt
  have hocc : m.occ (m.nextIndex i) = true := hshift.1
  have hne := nextIndex_ne hhole.free hocc
  have hn := nextIndex_lt hi
  have hh : m.home hasher (m.nextIndex i) < m.capacity := home_lt (by omega) _
  -- the moved entry is one step nearer to its home
  have hdist : Ring.dist m.capacity (m.home hasher (m.nextIndex i)) (m.nextIndex i) =
      Ring.dist m.capacity (m.home hasher (m.nextIndex i)) i + 1 :=
    Ring.dist_succ hh hi (Ne.symm haway)
  have hhome : (m.shiftOne i).home hasher i = m.home hasher (m.nextIndex i) := by
    show m.hash hasher ((m.shiftOne i).table i).key = _
    rw [shiftOne_hole hne]
    rfl
  have hother : ∀ {s : Nat}, s ≠ i → s ≠ m.nextIndex i →
      (m.shiftOne i).home hasher s = m.home hasher s := by
    intro s hs hs'
    show m.hash hasher ((m.shiftOne i).table s).key = _
    rw [shiftOne_other hs hs']
    rfl
  have hkeep : ∀ {s : Nat}, s ≠ i → (m.shiftOne i).occ s = true →
      s ≠ m.nextIndex i ∧ m.occ s = true := by
    intro s hs h
    rw [shiftOne_occ hne hocc, Function.update_of_ne hs] at h
    by_cases hsn : s = m.nextIndex i
    · rw [hsn, Function.update_self] at h
      cases h
    · rw [Function.update_of_ne hsn] at h
      exact ⟨hsn, h⟩
  have hpass : ∀ {h t : Nat}, m.Passes h t → Ring.slot m.capacity h t ≠ m.nextIndex i →
      (m.shiftOne i).Passes h t := by
    intro h t hpass hslot
    have hsi : Ring.slot m.capacity h t ≠ i := by
      intro heq
      have := hpass.1
      rw [heq, show (m.table i).occupied = false from hhole.free] at this
      cases this
    show ((m.shiftOne i).table (Ring.slot m.capacity h t)).occupied = true ∧
      (t : Int) ≤ ((m.shiftOne i).table (Ring.slot m.capacity h t)).probeDistance
    rw [shiftOne_other hsi hslot]
    exact hpass
  refine ⟨hn, ?_, ?_, ?_, ?_⟩
  · rw [occ, shiftOne_next]
  · intro s hs hsocc
    by_cases hsi : s = i
    · have hstored := hhole.stored _ hn hocc
      rw [hsi, hhome, shiftOne_hole hne]
      show (Ring.dist m.capacity (m.home hasher (m.nextIndex i)) i : Int) ≤
        (m.table (m.nextIndex i)).probeDistance - 1
      omega
    · obtain ⟨hsn, hsocc⟩ := hkeep hsi hsocc
      rw [hother hsi hsn, shiftOne_other hsi hsn]
      exact hhole.stored s hs hsocc
  · intro s hs hsocc t ht
    by_cases hsi : s = i
    · rw [hsi, hhome] at ht ⊢
      replace ht : t < Ring.dist m.capacity (m.home hasher (m.nextIndex i)) i := ht
      have hlt := Ring.dist_lt hh hi
      have hback := Ring.dist_slot hh (show t < m.capacity by omega)
      rcases hhole.reach _ hn hocc t (by omega) with hp | hslot
      · refine Or.inl (hpass hp fun heq => ?_)
        rw [heq] at hback
        omega
      · rw [hslot] at hback
        omega
    · obtain ⟨hsn, hsocc⟩ := hkeep hsi hsocc
      rw [hother hsi hsn] at ht ⊢
      rcases hhole.reach s hs hsocc t ht with hp | hslot
      · by_cases hslot : Ring.slot m.capacity (m.home hasher s) t = m.nextIndex i
        · exact Or.inr hslot
        · exact Or.inl (hpass hp hslot)
      · -- the hole is filled by an entry that lets this search pass
        obtain ⟨-, hstored, -⟩ := hhole.next hs hsocc ht hslot
        refine Or.inl ?_
        show ((m.shiftOne i).table (Ring.slot m.capacity (m.home hasher s) t)).occupied = true ∧
          (t : Int) ≤
            ((m.shiftOne i).table (Ring.slot m.capacity (m.home hasher s) t)).probeDistance
        rw [hslot, shiftOne_hole hne]
        exact ⟨hocc, by show (t : Int) ≤ (m.table (m.nextIndex i)).probeDistance - 1; omega⟩
  · rw [shiftOne_occ hne hocc, shiftOne_pair hne]
    refine (hhole.distinct.unset _).set (fun s hs hsi hsocc heq => ?_) _
    by_cases hsn : s = m.nextIndex i
    · rw [hsn, Function.update_self] at hsocc
      cases hsocc
    · rw [Function.update_of_ne hsn] at hsocc
      exact hsn (hhole.distinct s hs _ hn hsocc hocc heq)

/-- A shift does not change the map. -/
theorem Hole.shiftOne_rel [DecidableEq K] (hhole : Hole hasher m i)
    (hocc : m.occ (m.nextIndex i) = true)
    {f : K → Option V} (hrel : m.Rel f) : (m.shiftOne i).Rel f := by
  have hne := nextIndex_ne hhole.free hocc
  have hn := nextIndex_lt hhole.lt
  have hset := (hrel.unset hhole.distinct hn hocc).set hhole.lt
    (by rw [Function.update_of_ne (Ne.symm hne)]; exact hhole.free) (Function.update_self ..)
    (m.pair (m.nextIndex i)).2
  have hf : f (m.pair (m.nextIndex i)).1 = some (m.pair (m.nextIndex i)).2 :=
    (hrel _ _).mpr ⟨_, hn, hocc, rfl⟩
  rw [Function.update_idem, ← hf, Function.update_eq_self] at hset
  show StandsFor m.capacity (m.shiftOne i).occ (m.shiftOne i).pair f
  rw [shiftOne_occ hne hocc, shiftOne_pair hne]
  exact hset

theorem shiftOne_occupancy (hi : i < m.capacity) (hfree : m.occ i = false)
    (hocc : m.occ (m.nextIndex i) = true) :
    occupancy m.capacity (m.shiftOne i).occ = occupancy m.capacity m.occ := by
  have hne := nextIndex_ne hfree hocc
  rw [shiftOne_occ hne hocc, occupancy_set hi
    (by rw [Function.update_of_ne (Ne.symm hne)]; exact hfree),
    occupancy_unset (nextIndex_lt hi) hocc]

end Shift

/-- The distances of the entries; each shift takes one off. -/
def weight (m : RobinHoodHashMap K V) (s : Nat) : Nat :=
  if m.occ s = true then (m.table s).probeDistance.toNat else 0

theorem sum_update_add {cap i : Nat} (hi : i < cap) (w : Nat → Nat) (x : Nat) :
    (∑ s ∈ Finset.range cap, Function.update w i x s) + w i =
      (∑ s ∈ Finset.range cap, w s) + x := by
  have hmem : i ∈ Finset.range cap := Finset.mem_range.mpr hi
  rw [Finset.sum_update_of_mem hmem, Finset.sum_eq_add_sum_sdiff_singleton_of_mem hmem w]
  omega

theorem shiftOne_weight {i : Nat} (hi : i < m.capacity) (hfree : m.occ i = false)
    (hshift : m.Shiftable (m.nextIndex i)) :
    (∑ s ∈ Finset.range m.capacity, (m.shiftOne i).weight s) + 1 =
      ∑ s ∈ Finset.range m.capacity, m.weight s := by
  have hocc : m.occ (m.nextIndex i) = true := hshift.1
  have hne := nextIndex_ne hfree hocc
  have hweight : (m.shiftOne i).weight = Function.update
      (Function.update m.weight i (m.weight (m.nextIndex i) - 1)) (m.nextIndex i) 0 := by
    funext s
    by_cases hsn : s = m.nextIndex i
    · rw [hsn, Function.update_self, weight, occ, shiftOne_next, if_neg (by simp)]
    · rw [Function.update_of_ne hsn]
      by_cases hsi : s = i
      · rw [hsi, Function.update_self, weight, weight, occ, shiftOne_hole hne, if_pos hocc]
        show (if m.occ (m.nextIndex i) = true then
          ((m.table (m.nextIndex i)).probeDistance - 1).toNat else 0) = _
        rw [if_pos hocc]
        omega
      · rw [Function.update_of_ne hsi, weight, weight, occ, shiftOne_other hsi hsn]
        rfl
  have hhere : m.weight i = 0 := by
    rw [weight, hfree, if_neg (by simp)]
  have hthere : 0 < m.weight (m.nextIndex i) := by
    have := hshift.2
    rw [weight, if_pos hocc]
    omega
  have hfirst := sum_update_add hi m.weight (m.weight (m.nextIndex i) - 1)
  have hsecond := sum_update_add (nextIndex_lt hi)
    (Function.update m.weight i (m.weight (m.nextIndex i) - 1)) 0
  rw [Function.update_of_ne hne] at hsecond
  rw [hweight]
  omega

/-- No entry that the shift moves from behind a hole is at its home then. -/
def Homeward (hasher : K → Nat) : Nat → RobinHoodHashMap K V → Nat → Prop
  | 0, _, _ => True
  | rounds + 1, m, idx =>
      m.Shiftable (m.nextIndex idx) →
        m.home hasher (m.nextIndex idx) ≠ m.nextIndex idx ∧
          Homeward hasher rounds (m.shiftOne idx) (m.nextIndex idx)

instance decidableHomeward (hasher : K → Nat) : ∀ (rounds : Nat) (m : RobinHoodHashMap K V)
    (idx : Nat), Decidable (Homeward hasher rounds m idx)
  | 0, _, _ => inferInstanceAs (Decidable True)
  | rounds + 1, m, idx =>
      have := decidableHomeward hasher rounds (m.shiftOne idx) (m.nextIndex idx)
      inferInstanceAs (Decidable (_ → _ ∧ _))

theorem shiftLoop_spec [DecidableEq K] {f : K → Option V} :
    ∀ (rounds : Nat) {m : RobinHoodHashMap K V} {i : Nat},
    Hole hasher m i → m.Rel f → m.size = occupancy m.capacity m.occ →
    ∑ s ∈ Finset.range m.capacity, m.weight s < rounds → Homeward hasher rounds m i →
    ∃ m', m.shiftLoop rounds i = some m' ∧ Inv hasher m' ∧ m'.Rel f := by
  intro rounds
  induction rounds with
  | zero =>
      intro m i _ _ _ hlt
      omega
  | succ rounds ih =>
      intro m i hhole hrel hcount hlt haway
      rw [shiftLoop]
      by_cases hshift : m.Shiftable (m.nextIndex i)
      · obtain ⟨hnot, haway⟩ := haway hshift
        have hocc : m.occ (m.nextIndex i) = true := hshift.1
        have hweight := shiftOne_weight hhole.lt hhole.free hshift
        rw [if_pos hshift]
        exact ih (hhole.shiftOne hshift hnot) (hhole.shiftOne_rel hocc hrel)
          (hcount.trans (shiftOne_occupancy hhole.lt hhole.free hocc).symm)
          (show ∑ s ∈ Finset.range m.capacity, (m.shiftOne i).weight s < rounds by omega) haway
      · rw [if_neg hshift]
        exact ⟨m, rfl, ⟨hhole.fill hshift, hcount⟩, hrel⟩

/-- The shift behind the slot of a key moves no entry that is at its home. -/
def Removable (hasher : K → Nat) (m : RobinHoodHashMap K V) (key : K) : Prop :=
  ∀ i < m.capacity, m.occ i = true → (m.table i).key = key →
    Homeward hasher m.probeRounds (m.vacate i) i

/-- The rounds of a search are enough for the shift that follows it. -/
theorem vacate_weight (i : Nat) :
    ∑ s ∈ Finset.range m.capacity, (m.vacate i).weight s < m.probeRounds := by
  have hle : ∑ s ∈ Finset.range m.capacity, (m.vacate i).weight s ≤
      ∑ s ∈ Finset.range m.capacity, (m.table s).probeDistance.toNat := by
    refine Finset.sum_le_sum fun s _ => ?_
    rw [weight]
    by_cases hsi : s = i
    · rw [vacate_occ, hsi, Function.update_self, if_neg (by simp)]
      exact Nat.zero_le _
    · rw [show (m.vacate i).table s = m.table s from setEntry_table_of_ne hsi _]
      split <;> omega
  rw [probeRounds]
  omega

theorem vacate_count {i : Nat} (hcount : m.size = occupancy m.capacity m.occ)
    (hi : i < m.capacity) (hocc : m.occ i = true) :
    (m.vacate i).size = occupancy m.capacity (m.vacate i).occ := by
  have hunset := occupancy_unset hi hocc
  show m.size - 1 = _
  rw [vacate_occ]
  omega

theorem erase_absent [DecidableEq K] (hinv : Inv hasher m) {f : K → Option V} (hrel : m.Rel f)
    {key : K}
    (hnone : f key = none) : m.erase hasher key = some (false, m) := by
  rw [erase, findSlot_absent hasher hinv.pos ((rel_none_iff hrel key).mp hnone)]
  rfl

theorem erase_present [DecidableEq K] (hinv : Inv hasher m) {f : K → Option V} (hrel : m.Rel f)
    {key : K}
    (hsome : f key ≠ none) (haway : m.Removable hasher key) :
    ∃ m', m.erase hasher key = some (true, m') ∧ Inv hasher m' ∧
      m'.Rel (Function.update f key none) := by
  obtain ⟨i, hi, hocc, hkey⟩ := (ne_none_iff hrel key).mp hsome
  replace hkey : (m.table i).key = key := hkey
  have hslot := findSlot_present hinv.toReachable hi hocc
  rw [hkey] at hslot
  have hvrel : (m.vacate i).Rel (Function.update f key none) := by
    have := hrel.unset hinv.distinct hi hocc
    show StandsFor m.capacity (m.vacate i).occ (m.vacate i).pair _
    rw [vacate_occ, vacate_pair, ← hkey]
    exact this
  obtain ⟨m', hloop, hspec⟩ := shiftLoop_spec m.probeRounds (hinv.toReachable.vacate hi) hvrel
    (vacate_count hinv.count hi hocc) (vacate_weight i) (haway i hi hocc hkey)
  refine ⟨m', ?_, hspec⟩
  rw [erase, hslot, Option.bind_some]
  show ((m.vacate i).shiftLoop m.probeRounds i).map _ = _
  rw [hloop]
  rfl

end RobinHoodHashMap

variable [DecidableEq K] [Inhabited K] [Inhabited V]

/-! ## Calls and runs -/

/-- The calls of a map. -/
inductive Op (K V : Type) where
  | insert (key : K) (value : V)
  | find (key : K)
  | erase (key : K)
  | size
  deriving DecidableEq, Repr

/-- What a call returns; of a pointer, what it points to. -/
inductive Outcome (V : Type) where
  | done
  | found (r : Option V)
  | erased (b : Bool)
  | size (n : Nat)
  deriving DecidableEq, Repr

/-- What each call does to a finite map. -/
inductive Spec (f : K → Option V) : Op K V → Outcome V → (K → Option V) → Prop where
  | insert {key : K} {value : V} :
      Spec f (.insert key value) .done (Function.update f key (some value))
  | find {key : K} : Spec f (.find key) (.found (f key)) f
  | erased {key : K} (h : f key ≠ none) :
      Spec f (.erase key) (.erased true) (Function.update f key none)
  | missed {key : K} (h : f key = none) : Spec f (.erase key) (.erased false) f
  | size : Spec f .size (.size {k | f k ≠ none}.ncard) f

namespace RobinHoodHashMap

/-- `none` if the call does not return. -/
def exec (hasher : K → Nat) (m : RobinHoodHashMap K V) :
    Op K V → Option (Outcome V × RobinHoodHashMap K V)
  | .insert key value => (m.insert hasher key value).map fun m => (.done, m)
  | .find key => (m.find hasher key).map fun r => (.found r, m)
  | .erase key => (m.erase hasher key).map fun r => (.erased r.1, r.2)
  | .size => some (.size m.size, m)

def Meets (hasher : K → Nat) (m : RobinHoodHashMap K V) : Op K V → Prop
  | .erase key => m.Removable hasher key
  | _ => True

theorem exec_spec (hinv : Inv hasher m) {f : K → Option V} (hrel : m.Rel f) {op : Op K V}
    (hmeets : m.Meets hasher op) :
    ∃ out m' f', m.exec hasher op = some (out, m') ∧ Spec f op out f' ∧ Inv hasher m' ∧
      m'.Rel f' := by
  cases op with
  | insert key value =>
      obtain ⟨m', hinsert, hspec⟩ := insert_spec hinv hrel key value
      refine ⟨.done, m', _, ?_, .insert, hspec⟩
      rw [exec, hinsert]
      rfl
  | find key =>
      refine ⟨.found (f key), m, f, ?_, .find, hinv, hrel⟩
      rw [exec, find_spec hinv.toReachable hrel]
      rfl
  | erase key =>
      by_cases hf : f key = none
      · refine ⟨.erased false, m, f, ?_, .missed hf, hinv, hrel⟩
        rw [exec, erase_absent hinv hrel hf]
        rfl
      · obtain ⟨m', herase, hspec⟩ := erase_present hinv hrel hf hmeets
        refine ⟨.erased true, m', _, ?_, .erased hf, hspec⟩
        rw [exec, herase]
        rfl
  | size =>
      refine ⟨.size m.size, m, f, rfl, ?_, hinv, hrel⟩
      rw [hinv.size_eq hrel]
      exact .size

theorem new_spec {initialCapacity : Nat} {m : RobinHoodHashMap K V}
    (h : new hasher initialCapacity = some m) : Inv hasher m ∧ m.Rel fun _ => none := by
  rw [new] at h
  split at h
  · cases h
  · rw [resizeTable, resizeWith, if_neg (by dsimp only; omega)] at h
    cases h
    exact empty_spec hasher (by omega)

/-- A call with what it returns. -/
def Step (hasher : K → Nat) (m : RobinHoodHashMap K V) (l : Op K V × Outcome V)
    (m' : RobinHoodHashMap K V) : Prop :=
  m.exec hasher l.1 = some (l.2, m')

/-- The call, if it returns what the label says. -/
def stepFn (hasher : K → Nat) [DecidableEq V] (m : RobinHoodHashMap K V)
    (l : Op K V × Outcome V) : Option (RobinHoodHashMap K V) :=
  (m.exec hasher l.1).bind fun r => if r.1 = l.2 then some r.2 else none

theorem step_of_stepFn [DecidableEq V] {l : Op K V × Outcome V} {m' : RobinHoodHashMap K V}
    (h : m.stepFn hasher l = some m') : Step hasher m l m' := by
  obtain ⟨⟨out, m''⟩, hexec, h⟩ := Option.bind_eq_some_iff.mp h
  split at h
  · rename_i hout
    cases h
    rw [Step, hexec, ← hout]
  · cases h

instance decidableMeets (hasher : K → Nat) (m : RobinHoodHashMap K V) (op : Op K V) :
    Decidable (m.Meets hasher op) :=
  match op with
  | .erase key =>
      inferInstanceAs (Decidable (∀ i < m.capacity, m.occ i = true → (m.table i).key = key →
        Homeward hasher m.probeRounds (m.vacate i) i))
  | .insert .. => inferInstanceAs (Decidable True)
  | .find _ => inferInstanceAs (Decidable True)
  | .size => inferInstanceAs (Decidable True)

end RobinHoodHashMap

/-- Every run whose deletions shift only entries that are away from home is one of the
finite map, with the same results, and its next call returns. -/
theorem robinHood_refines {hasher : K → Nat} {initialCapacity : Nat}
    {m₀ m : RobinHoodHashMap K V} (hnew : RobinHoodHashMap.new hasher initialCapacity = some m₀)
    {ls : List (Op K V × Outcome V)}
    (h : Run (fun m l m' => RobinHoodHashMap.Step hasher m l m' ∧ m.Meets hasher l.1) m₀ ls m) :
    (∃ f, Run (fun f l f' => Spec f l.1 l.2 f') (fun _ => none) ls f ∧ m.Rel f) ∧
      ∀ op, m.Meets hasher op → (m.exec hasher op).isSome := by
  have hrun : RobinHoodHashMap.Inv hasher m ∧
      ∃ f, Run (fun f l f' => Spec f l.1 l.2 f') (fun _ => none) ls f ∧ m.Rel f := by
    refine h.inv (I := fun ls m => RobinHoodHashMap.Inv hasher m ∧
      ∃ f, Run (fun f l f' => Spec f l.1 l.2 f') (fun _ => none) ls f ∧ m.Rel f) ?_ ?_
    · obtain ⟨hinv, hrel⟩ := RobinHoodHashMap.new_spec hnew
      exact ⟨hinv, _, .nil, hrel⟩
    · rintro ls m ⟨op, out⟩ m' ⟨hinv, f, hf, hrel⟩ ⟨hstep, hmeets⟩
      obtain ⟨out', m'', f', hexec, hspec, hinv', hrel'⟩ :=
        RobinHoodHashMap.exec_spec hinv hrel hmeets
      rw [RobinHoodHashMap.Step, hexec] at hstep
      cases hstep
      exact ⟨hinv', f', hf.snoc hspec, hrel'⟩
  obtain ⟨hinv, f, hf, hrel⟩ := hrun
  refine ⟨⟨f, hf, hrel⟩, fun op hmeets => ?_⟩
  obtain ⟨out, m', f', hexec, -⟩ := RobinHoodHashMap.exec_spec hinv hrel hmeets
  rw [hexec]
  rfl

/-- Of two keys with one home the first is erased, and the second is shifted to it. -/
theorem robinHood_refines_shift :
    ∃ m₀ m : RobinHoodHashMap Nat Nat, RobinHoodHashMap.new id 4 = some m₀ ∧
      Run (fun m l m' => RobinHoodHashMap.Step id m l m' ∧ m.Meets id l.1) m₀
        [(.insert 1 10, .done), (.insert 5 50, .done), (.erase 1, .erased true),
          (.find 5, .found (some 50))] m ∧ ∃ f, m.Rel f := by
  have hexec : ((RobinHoodHashMap.new id 4).bind fun m₀ =>
      Run.exec (RobinHoodHashMap.stepFn id) (fun m l => m.Meets id l.1) m₀
        [(.insert 1 10, .done), (.insert 5 50, .done), (.erase 1, .erased true),
          (.find 5, .found (some (50 : Nat)))]).isSome := by decide +kernel
  obtain ⟨m, hm⟩ := Option.isSome_iff_exists.mp hexec
  obtain ⟨m₀, hnew, hm⟩ := Option.bind_eq_some_iff.mp hm
  have hrun : Run (fun m l m' => RobinHoodHashMap.Step id m l m' ∧ m.Meets id l.1) m₀
      [(.insert 1 10, .done), (.insert 5 50, .done), (.erase 1, .erased true),
        (.find 5, .found (some (50 : Nat)))] m :=
    (Run.of_exec hm).imp fun _ _ _ h => ⟨RobinHoodHashMap.step_of_stepFn h.1, h.2⟩
  obtain ⟨f, -, hrel⟩ := (robinHood_refines hnew hrun).1
  exact ⟨m₀, m, hnew, hrun, f, hrel⟩

/-- Key 8 displaces key 1, which is stored with distance 2. Two deletions later key 1 is
in front of its home, and is not found. -/
theorem displaced_key_hidden :
    (∃ m₀ m : RobinHoodHashMap Nat Nat, RobinHoodHashMap.new id 8 = some m₀ ∧
      Run (RobinHoodHashMap.Step id) m₀
        [(.insert 0 10, .done), (.insert 1 11, .done), (.insert 8 18, .done),
          (.erase 0, .erased true), (.erase 8, .erased true), (.find 1, .found none)] m) ∧
    ¬ ∃ f : Nat → Option Nat, Run (fun f l f' => Spec f l.1 l.2 f') (fun _ => none)
      [(.insert 0 10, .done), (.insert 1 11, .done), (.insert 8 18, .done),
        (.erase 0, .erased true), (.erase 8, .erased true), (.find 1, .found none)] f := by
  constructor
  · have hexec : ((RobinHoodHashMap.new id 8).bind fun m₀ =>
        Run.exec (RobinHoodHashMap.stepFn id) (fun _ _ => True) m₀
          [(.insert 0 10, .done), (.insert 1 11, .done), (.insert 8 18, .done),
            (.erase 0, .erased true), (.erase 8, .erased true),
            (.find 1, .found (none : Option Nat))]).isSome := by decide +kernel
    obtain ⟨m, hm⟩ := Option.isSome_iff_exists.mp hexec
    obtain ⟨m₀, hnew, hm⟩ := Option.bind_eq_some_iff.mp hm
    exact ⟨m₀, m, hnew,
      (Run.of_exec hm).imp fun _ _ _ h => RobinHoodHashMap.step_of_stepFn h.1⟩
  · rintro ⟨f, h⟩
    obtain ⟨f₅, h₅, hfind⟩ := Run.of_snoc (show Run _ _ ([_, _, _, _, _] ++ [_]) _ from h)
    obtain ⟨f₄, h₄, herase₈⟩ := Run.of_snoc (show Run _ _ ([_, _, _, _] ++ [_]) _ from h₅)
    obtain ⟨f₃, h₃, herase₀⟩ := Run.of_snoc (show Run _ _ ([_, _, _] ++ [_]) _ from h₄)
    obtain ⟨f₂, h₂, hinsert₈⟩ := Run.of_snoc (show Run _ _ ([_, _] ++ [_]) _ from h₃)
    obtain ⟨f₁, h₁, hinsert₁⟩ := Run.of_snoc (show Run _ _ ([_] ++ [_]) _ from h₂)
    cases hinsert₁
    cases hinsert₈
    cases herase₀
    cases herase₈
    generalize hr : Outcome.found (none : Option Nat) = out at hfind
    cases hfind with
    | find => simp [Function.update] at hr

end Ccbase.Libc
