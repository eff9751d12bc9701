import Ccbase.Lib.Ring
import Ccbase.Lib.Run

/-!
# `Map<Key, Value, Capacity>`

The table behind `operator new` and `operator delete`: linear probing, and a
deletion that only clears the flag of its slot. A key is found as long as every
slot from its home to its own is occupied. That is lost when a slot in between is
cleared, and the key behind it is then out of reach.

The abstract map is a function to `Option`; `Spec` is what each call does to it.
-/

namespace Ccbase.Optimizer

open Ccbase.Lib

/-- `data` and `occupied` are functions of the index; only indexes below the
capacity are used. -/
structure Map (K V : Type) where
  data : Nat → K × V
  occupied : Nat → Bool
  mapSize : Nat

variable {K V : Type} [DecidableEq K]

namespace Map

/-- A new map; the pairs are whatever their default constructors make. -/
def new (initial : Nat → K × V) : Map K V where
  data := initial
  occupied := fun _ => false
  mapSize := 0

section Code

variable (cap : Nat) (stdHash : K → Nat)

def hash (key : K) : Nat := stdHash key % cap

/-- The loop of `find_index`, for at most `rounds` rounds. -/
def findIndexFrom (m : Map K V) (key : K) (originalIndex : Nat) : Nat → Nat → Nat
  | 0, _ => cap
  | rounds + 1, index =>
      if m.occupied index = false ∨ (m.occupied index = true ∧ (m.data index).1 = key) then index
      else
        let index := (index + 1) % cap
        if index = originalIndex then cap else findIndexFrom m key originalIndex rounds index

/-- `find_index`; the loop is back at its start after `Capacity` rounds. -/
def findIndex (m : Map K V) (key : K) : Nat :=
  m.findIndexFrom cap key (hash cap stdHash key) cap (hash cap stdHash key)

end Code

end Map

/-- The calls of a map. -/
inductive Op (K V : Type) where
  | insert (key : K) (value : V)
  | at (key : K)
  | erase (key : K)
  | clear
  | size
  deriving DecidableEq, Repr

/-- What a call returns or throws. -/
inductive Outcome (V : Type) where
  | done
  | overflowError
  | value (v : V)
  | outOfRange
  | erased (b : Bool)
  | size (n : Nat)
  deriving DecidableEq, Repr

namespace Map

variable (cap : Nat) (stdHash : K → Nat)

/-- `none` is an access behind the end of the arrays. -/
def insert (m : Map K V) (key : K) (value : V) : Option (Outcome V × Map K V) :=
  if cap ≤ m.mapSize then some (.overflowError, m)
  else
    let index := m.findIndex cap stdHash key
    if index = cap then none
    else if m.occupied index = false then
      some (.done,
        { data := Function.update m.data index (key, value)
          occupied := Function.update m.occupied index true
          mapSize := m.mapSize + 1 })
    else some (.done, { m with data := Function.update m.data index (key, value) })

def at_ (m : Map K V) (key : K) : Outcome V :=
  let index := m.findIndex cap stdHash key
  if index = cap ∨ m.occupied index = false then .outOfRange else .value (m.data index).2

def erase (m : Map K V) (key : K) : Outcome V × Map K V :=
  let index := m.findIndex cap stdHash key
  if index = cap ∨ m.occupied index = false then (.erased false, m)
  else
    (.erased true,
      { m with occupied := Function.update m.occupied index false, mapSize := m.mapSize - 1 })

def clear (m : Map K V) : Map K V :=
  { m with occupied := fun i => if i < cap then false else m.occupied i, mapSize := 0 }

def exec (m : Map K V) : Op K V → Option (Outcome V × Map K V)
  | .insert key value => m.insert cap stdHash key value
  | .at key => some (m.at_ cap stdHash key, m)
  | .erase key => some (m.erase cap stdHash key)
  | .clear => some (.done, m.clear cap)
  | .size => some (.size m.mapSize, m)

end Map

/-! ## The abstract map -/

/-- What each call does to a finite map with at most `cap` keys. -/
inductive Spec (cap : Nat) (f : K → Option V) : Op K V → Outcome V → (K → Option V) → Prop where
  | insert {key : K} {value : V} (h : f key ≠ none ∨ {k | f k ≠ none}.ncard < cap) :
      Spec cap f (.insert key value) .done (Function.update f key (some value))
  | full {key : K} {value : V} (h : f key = none) (hfull : cap ≤ {k | f k ≠ none}.ncard) :
      Spec cap f (.insert key value) .overflowError f
  | value {key : K} {v : V} (h : f key = some v) : Spec cap f (.at key) (.value v) f
  | outOfRange {key : K} (h : f key = none) : Spec cap f (.at key) .outOfRange f
  | erased {key : K} (h : f key ≠ none) :
      Spec cap f (.erase key) (.erased true) (Function.update f key none)
  | missed {key : K} (h : f key = none) : Spec cap f (.erase key) (.erased false) f
  | clear : Spec cap f .clear .done fun _ => none
  | size : Spec cap f .size (.size {k | f k ≠ none}.ncard) f

/-! ## The search -/

namespace Map

variable {cap : Nat} {stdHash : K → Nat} {m : Map K V}

/-- A slot where the search for a key stops. -/
abbrev Stops (m : Map K V) (key : K) (i : Nat) : Prop :=
  m.occupied i = false ∨ (m.occupied i = true ∧ (m.data i).1 = key)

/-- The search stops at the first such slot behind the home of the key. -/
theorem findIndexFrom_spec (m : Map K V) (key : K) {h : Nat} (hh : h < cap) : ∀ (rounds i : Nat),
    i + rounds = cap →
    (∃ j, i ≤ j ∧ j < cap ∧ m.Stops key (Ring.slot cap h j) ∧
      (∀ t, i ≤ t → t < j → ¬ m.Stops key (Ring.slot cap h t)) ∧
      m.findIndexFrom cap key h rounds (Ring.slot cap h i) = Ring.slot cap h j) ∨
    ((∀ t, i ≤ t → t < cap → ¬ m.Stops key (Ring.slot cap h t)) ∧
      m.findIndexFrom cap key h rounds (Ring.slot cap h i) = cap) := by
  intro rounds
  induction rounds with
  | zero =>
      intro i hi
      exact Or.inr ⟨fun t _ _ => by omega, rfl⟩
  | succ rounds ih =>
      intro i hi
      by_cases hstop : m.Stops key (Ring.slot cap h i)
      · exact Or.inl ⟨i, Nat.le_refl i, by omega, hstop, fun t _ _ => by omega,
          by rw [findIndexFrom, if_pos hstop]⟩
      · have hrest : ∀ {z : Nat}, (∀ t, i + 1 ≤ t → t < z → ¬ m.Stops key (Ring.slot cap h t)) →
            ∀ t, i ≤ t → t < z → ¬ m.Stops key (Ring.slot cap h t) := by
          intro z hz t hit htz
          by_cases ht : t = i
          · rw [ht]
            exact hstop
          · exact hz t (by omega) htz
        rw [findIndexFrom, if_neg hstop]
        simp only [Ring.slot_succ]
        by_cases hback : i + 1 = cap
        · refine Or.inr ⟨hrest fun t _ _ => by omega, ?_⟩
          rw [hback, Ring.slot_cap hh, if_pos rfl]
        · have hne : Ring.slot cap h (i + 1) ≠ h := by
            intro heq
            have hz := Ring.dist_slot hh (show i + 1 < cap by omega)
            rw [heq, Ring.dist_self] at hz
            omega
          rw [if_neg hne]
          rcases ih (i + 1) (by omega) with ⟨j, hij, hj, hstops, hbefore, hfind⟩ | ⟨hnone, hfind⟩
          · exact Or.inl ⟨j, by omega, hj, hstops, hrest hbefore, hfind⟩
          · exact Or.inr ⟨hrest hnone, hfind⟩

/-- The invariant: keys are in reach of their homes and in one slot each. -/
structure Inv (cap : Nat) (stdHash : K → Nat) (m : Map K V) : Prop where
  pos : 0 < cap
  reach : ∀ s < cap, m.occupied s = true →
    ∀ j < Ring.dist cap (hash cap stdHash (m.data s).1) s,
      m.occupied (Ring.slot cap (hash cap stdHash (m.data s).1) j) = true
  distinct : DistinctKeys cap m.occupied m.data
  count : m.mapSize = occupancy cap m.occupied

omit [DecidableEq K] in
theorem hash_lt (hcap : 0 < cap) (key : K) : hash cap stdHash key < cap := Nat.mod_lt _ hcap

theorem findIndex_present (hinv : Inv cap stdHash m) {s : Nat} (hs : s < cap)
    (hocc : m.occupied s = true) : m.findIndex cap stdHash (m.data s).1 = s := by
  have hh : hash cap stdHash (m.data s).1 < cap := hash_lt hinv.pos _
  have hdist := Ring.dist_lt hh hs
  have hslot := Ring.slot_dist hh hs
  have hstop : m.Stops (m.data s).1
      (Ring.slot cap (hash cap stdHash (m.data s).1)
        (Ring.dist cap (hash cap stdHash (m.data s).1) s)) := by
    rw [hslot]
    exact Or.inr ⟨hocc, rfl⟩
  have hpass : ∀ t < Ring.dist cap (hash cap stdHash (m.data s).1) s,
      ¬ m.Stops (m.data s).1 (Ring.slot cap (hash cap stdHash (m.data s).1) t) := by
    intro t ht hstops
    have htocc := hinv.reach s hs hocc t ht
    rcases hstops with hfree | ⟨-, hkey⟩
    · rw [htocc] at hfree
      cases hfree
    · have hsame := hinv.distinct _ (Ring.slot_lt hinv.pos) s hs htocc hocc hkey
      have hback := Ring.dist_slot hh (show t < cap by omega)
      rw [hsame] at hback
      omega
  have hspec := findIndexFrom_spec m (m.data s).1 hh cap 0 (Nat.zero_add cap)
  rw [Ring.slot_zero hh] at hspec
  rcases hspec with ⟨j, -, hj, hstops, hbefore, hfind⟩ | ⟨hnone, -⟩
  · rw [findIndex, hfind]
    rcases Nat.lt_trichotomy j (Ring.dist cap (hash cap stdHash (m.data s).1) s) with
      hlt | heq | hgt
    · exact absurd hstops (hpass j hlt)
    · rw [heq, hslot]
    · exact absurd hstop (hbefore _ (Nat.zero_le _) hgt)
  · exact absurd hstop (hnone _ (Nat.zero_le _) hdist)

/-- The search for a key that is not there ends at a free slot, with occupied ones
up to it, or nowhere. -/
theorem findIndex_absent (stdHash : K → Nat) (hcap : 0 < cap) {key : K}
    (habsent : ∀ s < cap, m.occupied s = true → (m.data s).1 ≠ key) :
    (m.findIndex cap stdHash key = cap ∧ ∀ s < cap, m.occupied s = true) ∨
    ∃ j < cap, m.findIndex cap stdHash key = Ring.slot cap (hash cap stdHash key) j ∧
      m.occupied (Ring.slot cap (hash cap stdHash key) j) = false ∧
      ∀ t < j, m.occupied (Ring.slot cap (hash cap stdHash key) t) = true := by
  have hh : hash cap stdHash key < cap := hash_lt hcap _
  have hocc : ∀ {t : Nat}, ¬ m.Stops key (Ring.slot cap (hash cap stdHash key) t) →
      m.occupied (Ring.slot cap (hash cap stdHash key) t) = true := by
    intro t ht
    by_contra hfree
    exact ht (Or.inl (by simpa using hfree))
  have hspec := findIndexFrom_spec m key hh cap 0 (Nat.zero_add cap)
  rw [Ring.slot_zero hh] at hspec
  rcases hspec with ⟨j, -, hj, hstops, hbefore, hfind⟩ | ⟨hnone, hfind⟩
  · refine Or.inr ⟨j, hj, hfind, ?_, fun t ht => hocc (hbefore t (Nat.zero_le t) ht)⟩
    rcases hstops with hfree | ⟨htrue, hkey⟩
    · exact hfree
    · exact absurd hkey (habsent _ (Ring.slot_lt hcap) htrue)
  · refine Or.inl ⟨hfind, fun s hs => ?_⟩
    have hslot := hocc (hnone _ (Nat.zero_le _) (Ring.dist_lt hh hs))
    rwa [Ring.slot_dist hh hs] at hslot

/-! ## One call -/

/-- The table of a map stands for `f`. -/
def Rel (cap : Nat) (m : Map K V) (f : K → Option V) : Prop :=
  StandsFor cap m.occupied m.data f

/-- The slot of a key is on the way to no other key. -/
def Removable (cap : Nat) (stdHash : K → Nat) (m : Map K V) (key : K) : Prop :=
  ∀ i < cap, m.occupied i = true → (m.data i).1 = key → ∀ s < cap, m.occupied s = true →
    ¬ Ring.dist cap (hash cap stdHash (m.data s).1) i <
      Ring.dist cap (hash cap stdHash (m.data s).1) s

/-- A key that is there is inserted again only while the table is not full, and
erased only if no other key is found through its slot. -/
def Meets (cap : Nat) (stdHash : K → Nat) (m : Map K V) : Op K V → Prop
  | .insert key _ => m.mapSize < cap ∨ ∀ s < cap, m.occupied s = true → (m.data s).1 ≠ key
  | .erase key => m.Removable cap stdHash key
  | _ => True

omit [DecidableEq K] in
theorem rel_none_iff {f : K → Option V} (hrel : m.Rel cap f) (key : K) :
    f key = none ↔ ∀ s < cap, m.occupied s = true → (m.data s).1 ≠ key := by
  rw [← not_iff_not, ← ne_eq, ne_none_iff hrel]
  push Not
  rfl

omit [DecidableEq K] in
theorem Inv.size_eq (hinv : Inv cap stdHash m) {f : K → Option V} (hrel : m.Rel cap f) :
    {k | f k ≠ none}.ncard = m.mapSize := by
  rw [ncard_present hinv.distinct hrel, hinv.count]

omit [DecidableEq K] in
/-- A key of the table, where it is. -/
theorem Rel.slot {f : K → Option V} (hrel : m.Rel cap f) {key : K} {v : V} (h : f key = some v) :
    ∃ s < cap, m.occupied s = true ∧ m.data s = (key, v) :=
  (hrel key v).mp h

theorem at_spec (hinv : Inv cap stdHash m) {f : K → Option V} (hrel : m.Rel cap f) (key : K) :
    Spec cap f (.at key) (m.at_ cap stdHash key) f := by
  cases hf : f key with
  | some v =>
      obtain ⟨s, hs, hocc, hdata⟩ := hrel.slot hf
      have hfind := findIndex_present hinv hs hocc
      rw [hdata] at hfind
      have hat : m.at_ cap stdHash key = .value v := by
        simp only [at_, hfind, hocc, hdata, Nat.ne_of_lt hs, Bool.true_eq_false, or_self, if_false]
      rw [hat]
      exact .value hf
  | none =>
      have habsent := (rel_none_iff hrel key).mp hf
      have hat : m.at_ cap stdHash key = .outOfRange := by
        rcases findIndex_absent stdHash hinv.pos habsent with
          ⟨hfind, -⟩ | ⟨j, -, hfind, hfree, -⟩
        · simp only [at_, hfind, true_or, if_true]
        · simp only [at_, hfind, hfree, or_true, if_true]
      rw [hat]
      exact .outOfRange hf

/-- Writing the pair of a slot that is occupied then. -/
theorem rel_set {f : K → Option V} {key : K} {value : V} {i : Nat} (hi : i < cap)
    {occ : Nat → Bool} (hocc : occ i = true)
    (hothers : ∀ s < cap, s ≠ i → (occ s = true ↔ m.occupied s = true))
    (hkey : ∀ s < cap, s ≠ i → m.occupied s = true → (m.data s).1 ≠ key)
    (hslot : m.occupied i = true → (m.data i).1 = key) (hrel : m.Rel cap f) :
    StandsFor cap occ (Function.update m.data i (key, value))
      (Function.update f key (some value)) := by
  intro k v
  by_cases hk : k = key
  · subst hk
    rw [Function.update_self]
    constructor
    · intro h
      cases h
      exact ⟨i, hi, hocc, Function.update_self ..⟩
    · rintro ⟨s, hs, hsocc, hdata⟩
      by_cases hsi : s = i
      · subst hsi
        rw [Function.update_self] at hdata
        cases hdata
        rfl
      · rw [Function.update_of_ne hsi] at hdata
        exact absurd (by rw [hdata]) (hkey s hs hsi ((hothers s hs hsi).mp hsocc))
  · rw [Function.update_of_ne hk, hrel k v]
    constructor
    · rintro ⟨s, hs, hsocc, hdata⟩
      have hsi : s ≠ i := by
        rintro rfl
        have := hslot hsocc
        rw [hdata] at this
        exact hk this
      exact ⟨s, hs, (hothers s hs hsi).mpr hsocc, by rw [Function.update_of_ne hsi]; exact hdata⟩
    · rintro ⟨s, hs, hsocc, hdata⟩
      have hsi : s ≠ i := by
        rintro rfl
        rw [Function.update_self] at hdata
        cases hdata
        exact hk rfl
      rw [Function.update_of_ne hsi] at hdata
      exact ⟨s, hs, (hothers s hs hsi).mp hsocc, hdata⟩

omit [DecidableEq K] in
/-- A new key goes to the first free slot behind its home. -/
theorem Inv.place (hinv : Inv cap stdHash m) {key : K} (value : V) {j : Nat} (hj : j < cap)
    (hfree : m.occupied (Ring.slot cap (hash cap stdHash key) j) = false)
    (hbefore : ∀ t < j, m.occupied (Ring.slot cap (hash cap stdHash key) t) = true)
    (habsent : ∀ s < cap, m.occupied s = true → (m.data s).1 ≠ key) :
    Inv cap stdHash
      { data := Function.update m.data (Ring.slot cap (hash cap stdHash key) j) (key, value)
        occupied := Function.update m.occupied (Ring.slot cap (hash cap stdHash key) j) true
        mapSize := m.mapSize + 1 } := by
  have hh : hash cap stdHash key < cap := hash_lt hinv.pos key
  have hdist := Ring.dist_slot hh hj
  have hi : Ring.slot cap (hash cap stdHash key) j < cap := Ring.slot_lt hinv.pos
  generalize Ring.slot cap (hash cap stdHash key) j = i at hfree hdist hi ⊢
  have hgrow : ∀ {s : Nat}, m.occupied s = true → Function.update m.occupied i true s = true := by
    intro s hs
    by_cases hsi : s = i
    · rw [hsi, Function.update_self]
    · rw [Function.update_of_ne hsi]
      exact hs
  have hold : ∀ {s : Nat}, s ≠ i → Function.update m.occupied i true s = true →
      m.occupied s = true ∧ Function.update m.data i (key, value) s = m.data s := by
    intro s hsi hs
    rw [Function.update_of_ne hsi] at hs ⊢
    exact ⟨hs, rfl⟩
  refine ⟨hinv.pos, ?_, ?_, ?_⟩
  · intro s hs hsocc t ht
    by_cases hsi : s = i
    · subst hsi
      simp only [Function.update_self] at ht ⊢
      rw [hdist] at ht
      exact hgrow (hbefore t ht)
    · obtain ⟨hsocc, hdata⟩ := hold hsi hsocc
      simp only [hdata] at ht ⊢
      exact hgrow (hinv.reach s hs hsocc t ht)
  · intro s hs s' hs' hsocc hsocc' heq
    dsimp only at hsocc hsocc' heq
    by_cases hsi : s = i
    · by_cases hsi' : s' = i
      · rw [hsi, hsi']
      · obtain ⟨hsocc', hdata'⟩ := hold hsi' hsocc'
        rw [hsi, Function.update_self, hdata'] at heq
        exact absurd heq.symm (habsent s' hs' hsocc')
    · obtain ⟨hsocc, hdata⟩ := hold hsi hsocc
      by_cases hsi' : s' = i
      · rw [hsi', Function.update_self, hdata] at heq
        exact absurd heq (habsent s hs hsocc)
      · obtain ⟨hsocc', hdata'⟩ := hold hsi' hsocc'
        rw [hdata, hdata'] at heq
        exact hinv.distinct s hs s' hs' hsocc hsocc' heq
  · show m.mapSize + 1 = occupancy cap (Function.update m.occupied i true)
    rw [occupancy_set hi hfree, hinv.count]

theorem insert_spec (hinv : Inv cap stdHash m) {f : K → Option V} (hrel : m.Rel cap f) (key : K)
    (value : V) (hmeets : m.Meets cap stdHash (.insert key value)) :
    ∃ out m' f', m.insert cap stdHash key value = some (out, m') ∧
      Spec cap f (.insert key value) out f' ∧ Inv cap stdHash m' ∧ m'.Rel cap f' := by
  have hsize := hinv.size_eq hrel
  by_cases hfull : cap ≤ m.mapSize
  · have hnone : f key = none := by
      refine (rel_none_iff hrel key).mpr ?_
      rcases hmeets with h | h
      · omega
      · exact h
    refine ⟨.overflowError, m, f, ?_, .full hnone (by omega), hinv, hrel⟩
    rw [insert, if_pos hfull]
  cases hf : f key with
  | some v =>
      obtain ⟨i, hi, hocc, hdata⟩ := hrel.slot hf
      have hfind := findIndex_present hinv hi hocc
      rw [hdata] at hfind
      have hkeys : ∀ s, (Function.update m.data i (key, value) s).1 = (m.data s).1 := by
        intro s
        by_cases hs : s = i
        · subst hs
          rw [Function.update_self, hdata]
        · rw [Function.update_of_ne hs]
      refine ⟨.done, { m with data := Function.update m.data i (key, value) },
        Function.update f key (some value), ?_, .insert (Or.inl (by rw [hf]; simp)), ?_, ?_⟩
      · simp only [insert, if_neg hfull, hfind, Nat.ne_of_lt hi, hocc, Bool.true_eq_false,
          if_false]
      · exact
          { pos := hinv.pos
            reach := by
              intro s hs hsocc j hj
              simp only [hkeys] at hj ⊢
              exact hinv.reach s hs hsocc j hj
            distinct := by
              intro s hs s' hs' hsocc hsocc' heq
              rw [hkeys, hkeys] at heq
              exact hinv.distinct s hs s' hs' hsocc hsocc' heq
            count := hinv.count }
      · refine rel_set hi hocc (fun _ _ _ => Iff.rfl) (fun s hs hsi hsocc heq => ?_)
          (fun _ => by rw [hdata]) hrel
        refine hsi (hinv.distinct s hs i hi hsocc hocc ?_)
        rw [heq, hdata]
  | none =>
      have habsent := (rel_none_iff hrel key).mp hf
      obtain ⟨s₀, hs₀, hs₀free⟩ := exists_free (by rw [← hinv.count]; omega)
      rcases findIndex_absent stdHash hinv.pos habsent with
        ⟨-, hall⟩ | ⟨j, hj, hfind, hfree, hbefore⟩
      · rw [hall s₀ hs₀] at hs₀free
        cases hs₀free
      · have hi : Ring.slot cap (hash cap stdHash key) j < cap := Ring.slot_lt hinv.pos
        refine ⟨.done, _, Function.update f key (some value), ?_, .insert (Or.inr (by omega)),
          hinv.place value hj hfree hbefore habsent, ?_⟩
        · simp only [insert, if_neg hfull, hfind, Nat.ne_of_lt hi, hfree, if_true, if_false]
        · refine rel_set hi (Function.update_self ..) (fun s hs hsi => ?_)
            (fun s hs _ hsocc => habsent s hs hsocc) (fun hocc => ?_) hrel
          · show Function.update m.occupied _ true s = true ↔ _
            rw [Function.update_of_ne hsi]
          · rw [hfree] at hocc
            cases hocc

theorem erase_spec (hinv : Inv cap stdHash m) {f : K → Option V} (hrel : m.Rel cap f) (key : K)
    (hmeets : m.Removable cap stdHash key) :
    ∃ f', Spec cap f (.erase key) (m.erase cap stdHash key).1 f' ∧
      Inv cap stdHash (m.erase cap stdHash key).2 ∧ (m.erase cap stdHash key).2.Rel cap f' := by
  cases hf : f key with
  | none =>
      have habsent := (rel_none_iff hrel key).mp hf
      have herase : m.erase cap stdHash key = (.erased false, m) := by
        rcases findIndex_absent stdHash hinv.pos habsent with ⟨hfind, -⟩ | ⟨j, -, hfind, hfree, -⟩
        · simp only [erase, hfind, true_or, if_true]
        · simp only [erase, hfind, hfree, or_true, if_true]
      rw [herase]
      exact ⟨f, .missed hf, hinv, hrel⟩
  | some v =>
      obtain ⟨i, hi, hocc, hdata⟩ := hrel.slot hf
      have hfind := findIndex_present hinv hi hocc
      rw [hdata] at hfind
      have herase : m.erase cap stdHash key = (.erased true,
          { m with
            occupied := Function.update m.occupied i false, mapSize := m.mapSize - 1 }) := by
        simp only [erase, hfind, hocc, Nat.ne_of_lt hi, Bool.true_eq_false, or_self, if_false]
      have hkeep : ∀ {s : Nat}, Function.update m.occupied i false s = true →
          s ≠ i ∧ m.occupied s = true := by
        intro s hs
        by_cases hsi : s = i
        · rw [hsi, Function.update_self] at hs
          cases hs
        · rw [Function.update_of_ne hsi] at hs
          exact ⟨hsi, hs⟩
      rw [herase]
      refine ⟨Function.update f key none, .erased (by rw [hf]; simp), ⟨hinv.pos, ?_, ?_, ?_⟩, ?_⟩
      · intro s hs hsocc j hj
        obtain ⟨hsi, hsocc⟩ := hkeep hsocc
        have hh : hash cap stdHash (m.data s).1 < cap := hash_lt hinv.pos _
        have hold := hinv.reach s hs hsocc j hj
        -- the way to `s` does not lead over the slot that is cleared
        have hne : Ring.slot cap (hash cap stdHash (m.data s).1) j ≠ i := by
          intro heq
          have hdist := Ring.dist_slot hh (hj.trans (Ring.dist_lt hh hs))
          rw [heq] at hdist
          exact hmeets i hi hocc (by rw [hdata]) s hs hsocc (by rw [hdist]; exact hj)
        show Function.update m.occupied i false _ = true
        rw [Function.update_of_ne hne]
        exact hold
      · intro s hs s' hs' hsocc hsocc' heq
        exact hinv.distinct s hs s' hs' (hkeep hsocc).2 (hkeep hsocc').2 heq
      · have hunset := occupancy_unset hi hocc
        have hcount := hinv.count
        show m.mapSize - 1 = occupancy cap (Function.update m.occupied i false)
        omega
      · intro k w
        by_cases hk : k = key
        · subst hk
          rw [Function.update_self]
          refine ⟨fun h => absurd h (by simp), ?_⟩
          rintro ⟨s, hs, hsocc, hsdata⟩
          obtain ⟨hsi, hsocc⟩ := hkeep hsocc
          have hsame := hinv.distinct s hs i hi hsocc hocc (by rw [hsdata, hdata])
          exact absurd hsame hsi
        · rw [Function.update_of_ne hk, hrel k w]
          constructor
          · rintro ⟨s, hs, hsocc, hsdata⟩
            have hsi : s ≠ i := by
              rintro rfl
              rw [hdata] at hsdata
              cases hsdata
              exact hk rfl
            refine ⟨s, hs, ?_, hsdata⟩
            show Function.update m.occupied i false s = true
            rw [Function.update_of_ne hsi]
            exact hsocc
          · rintro ⟨s, hs, hsocc, hsdata⟩
            exact ⟨s, hs, (hkeep hsocc).2, hsdata⟩

omit [DecidableEq K] in
theorem clear_spec (hinv : Inv cap stdHash m) :
    Inv cap stdHash (m.clear cap) ∧ (m.clear cap).Rel cap fun _ => none := by
  have hfree : ∀ s < cap, (m.clear cap).occupied s = false := by
    intro s hs
    simp only [clear, if_pos hs]
  refine ⟨⟨hinv.pos, ?_, ?_, ?_⟩, ?_⟩
  · intro s hs hocc
    rw [hfree s hs] at hocc
    cases hocc
  · intro s hs s' _ hocc
    rw [hfree s hs] at hocc
    cases hocc
  · exact (occupancy_none hfree).symm
  · intro k v
    refine ⟨fun h => absurd h (by simp), ?_⟩
    rintro ⟨s, hs, hocc, -⟩
    rw [hfree s hs] at hocc
    cases hocc

theorem exec_spec (hinv : Inv cap stdHash m) {f : K → Option V} (hrel : m.Rel cap f)
    {op : Op K V} (hmeets : m.Meets cap stdHash op) :
    ∃ out m' f', m.exec cap stdHash op = some (out, m') ∧ Spec cap f op out f' ∧
      Inv cap stdHash m' ∧ m'.Rel cap f' := by
  cases op with
  | insert key value => exact insert_spec hinv hrel key value hmeets
  | «at» key => exact ⟨_, m, f, rfl, at_spec hinv hrel key, hinv, hrel⟩
  | erase key =>
      obtain ⟨f', hspec, hinv', hrel'⟩ := erase_spec hinv hrel key hmeets
      exact ⟨_, _, f', rfl, hspec, hinv', hrel'⟩
  | clear =>
      obtain ⟨hinv', hrel'⟩ := clear_spec hinv
      exact ⟨.done, _, fun _ => none, rfl, .clear, hinv', hrel'⟩
  | size =>
      refine ⟨.size m.mapSize, m, f, rfl, ?_, hinv, hrel⟩
      rw [← hinv.size_eq hrel]
      exact .size

/-! ## Runs -/

/-- A call with what it returns. -/
def Step (cap : Nat) (stdHash : K → Nat) (m : Map K V) (l : Op K V × Outcome V) (m' : Map K V) :
    Prop :=
  m.exec cap stdHash l.1 = some (l.2, m')

/-- The call, if it returns what the label says. -/
def stepFn (cap : Nat) (stdHash : K → Nat) [DecidableEq V] (m : Map K V)
    (l : Op K V × Outcome V) : Option (Map K V) :=
  (m.exec cap stdHash l.1).bind fun r => if r.1 = l.2 then some r.2 else none

theorem step_of_stepFn [DecidableEq V] {l : Op K V × Outcome V} {m' : Map K V}
    (h : m.stepFn cap stdHash l = some m') : Step cap stdHash m l m' := by
  obtain ⟨⟨out, m''⟩, hexec, h⟩ := Option.bind_eq_some_iff.mp h
  split at h
  · rename_i hout
    cases h
    rw [Step, hexec, ← hout]
  · cases h

instance decidableMeets (cap : Nat) (stdHash : K → Nat) (m : Map K V) (op : Op K V) :
    Decidable (m.Meets cap stdHash op) :=
  match op with
  | .insert .. => inferInstanceAs (Decidable (_ ∨ _))
  | .erase key =>
      inferInstanceAs (Decidable (∀ i < cap, m.occupied i = true → (m.data i).1 = key →
        ∀ s < cap, m.occupied s = true →
          ¬ Ring.dist cap (hash cap stdHash (m.data s).1) i <
            Ring.dist cap (hash cap stdHash (m.data s).1) s))
  | .at _ => inferInstanceAs (Decidable True)
  | .clear => inferInstanceAs (Decidable True)
  | .size => inferInstanceAs (Decidable True)

omit [DecidableEq K] in
theorem new_inv (hcap : 0 < cap) (stdHash : K → Nat) (initial : Nat → K × V) :
    Inv cap stdHash (new initial) ∧ (new initial).Rel cap fun _ => none := by
  refine ⟨⟨hcap, ?_, ?_, ?_⟩, ?_⟩
  · intro s _ hocc
    cases hocc
  · intro s _ s' _ hocc
    cases hocc
  · exact (occupancy_none fun _ _ => rfl).symm
  · intro k v
    refine ⟨fun h => absurd h (by simp), ?_⟩
    rintro ⟨s, _, hocc, -⟩
    cases hocc

end Map

/-- Every run of the map whose calls meet the condition is one of the abstract map,
with the same results. -/
theorem memory_map_refines {cap : Nat} (hcap : 0 < cap) (stdHash : K → Nat)
    (initial : Nat → K × V) {ls : List (Op K V × Outcome V)} {m : Map K V}
    (h : Run (fun m l m' => Map.Step cap stdHash m l m' ∧ m.Meets cap stdHash l.1)
      (Map.new initial) ls m) :
    (∃ f, Run (fun f l f' => Spec cap f l.1 l.2 f') (fun _ => none) ls f ∧ m.Rel cap f) ∧
      ∀ op, m.Meets cap stdHash op → (m.exec cap stdHash op).isSome := by
  have hrun : Map.Inv cap stdHash m ∧
      ∃ f, Run (fun f l f' => Spec cap f l.1 l.2 f') (fun _ => none) ls f ∧ m.Rel cap f := by
    refine h.inv (I := fun ls m => Map.Inv cap stdHash m ∧
      ∃ f, Run (fun f l f' => Spec cap f l.1 l.2 f') (fun _ => none) ls f ∧ m.Rel cap f) ?_ ?_
    · obtain ⟨hinv, hrel⟩ := Map.new_inv hcap stdHash initial
      exact ⟨hinv, _, .nil, hrel⟩
    · rintro ls m ⟨op, out⟩ m' ⟨hinv, f, hf, hrel⟩ ⟨hstep, hmeets⟩
      obtain ⟨out', m'', f', hexec, hspec, hinv', hrel'⟩ := Map.exec_spec hinv hrel hmeets
      rw [Map.Step, hexec] at hstep
      cases hstep
      exact ⟨hinv', f', hf.snoc hspec, hrel'⟩
  obtain ⟨hinv, f, hf, hrel⟩ := hrun
  refine ⟨⟨f, hf, hrel⟩, fun op hmeets => ?_⟩
  obtain ⟨out, m', f', hexec, -⟩ := Map.exec_spec hinv hrel hmeets
  rw [hexec]
  rfl

/-- The second of two keys with one home is erased, and the first is still found. -/
theorem memory_map_refines_collision :
    ∃ m : Map Nat Nat, Run (fun m l m' => Map.Step 4 id m l m' ∧ m.Meets 4 id l.1)
      (Map.new fun _ => (0, 0))
      [(.insert 1 10, .done), (.insert 5 50, .done), (.erase 5, .erased true),
        (.at 1, .value 10)] m ∧ ∃ f, m.Rel 4 f := by
  have hexec : (Run.exec (Map.stepFn 4 id) (fun m l => m.Meets 4 id l.1)
      (Map.new fun _ => (0, 0))
      [(.insert 1 10, .done), (.insert 5 50, .done), (.erase 5, .erased true),
        (.at 1, .value (10 : Nat))]).isSome := by decide
  obtain ⟨m, hm⟩ := Option.isSome_iff_exists.mp hexec
  have hrun : Run (fun m l m' => Map.Step 4 id m l m' ∧ m.Meets 4 id l.1)
      (Map.new fun _ => (0, 0))
      [(.insert 1 10, .done), (.insert 5 50, .done), (.erase 5, .erased true),
        (.at 1, .value (10 : Nat))] m :=
    (Run.of_exec hm).imp fun _ _ _ h => ⟨Map.step_of_stepFn h.1, h.2⟩
  obtain ⟨f, -, hrel⟩ := (memory_map_refines (by decide) id _ hrun).1
  exact ⟨m, hrun, f, hrel⟩

/-- The first of two keys with one home is erased, and the second is not found. -/
theorem erase_hides_key :
    (∃ m : Map Nat Nat, Run (Map.Step 2 id) (Map.new fun _ => (0, 0))
      [(.insert 0 10, .done), (.insert 2 20, .done), (.erase 0, .erased true),
        (.at 2, .outOfRange)] m) ∧
    ¬ ∃ f : Nat → Option Nat, Run (fun f l f' => Spec 2 f l.1 l.2 f') (fun _ => none)
      [(.insert 0 10, .done), (.insert 2 20, .done), (.erase 0, .erased true),
        (.at 2, .outOfRange)] f := by
  constructor
  · have hexec : (Run.exec (Map.stepFn 2 id) (fun _ _ => True) (Map.new fun _ => (0, 0))
        [(.insert 0 10, .done), (.insert 2 20, .done), (.erase 0, .erased true),
          (.at 2, (.outOfRange : Outcome Nat))]).isSome := by decide
    obtain ⟨m, hm⟩ := Option.isSome_iff_exists.mp hexec
    exact ⟨m, (Run.of_exec hm).imp fun _ _ _ h => Map.step_of_stepFn h.1⟩
  · rintro ⟨f, h⟩
    have h₄ : Run (fun f l f' => Spec 2 f l.1 l.2 f') (fun _ => none)
      ([(Op.insert 0 10, .done), (.insert 2 20, .done), (.erase 0, .erased true)] ++
        [(.at 2, .outOfRange)]) f := h
    obtain ⟨f₃, h₃, hat⟩ := h₄.of_snoc
    have h₃ : Run (fun f l f' => Spec 2 f l.1 l.2 f') (fun _ => none)
      ([(Op.insert 0 10, .done), (.insert 2 20, .done)] ++ [(.erase 0, .erased true)]) f₃ := h₃
    obtain ⟨f₂, h₂, herase⟩ := h₃.of_snoc
    have h₂ : Run (fun f l f' => Spec 2 f l.1 l.2 f') (fun _ => none)
      ([(Op.insert 0 10, .done)] ++ [(.insert 2 20, .done)]) f₂ := h₂
    obtain ⟨f₁, -, hinsert⟩ := h₂.of_snoc
    cases hinsert
    cases herase
    cases hat with
    | outOfRange hnone => simp [Function.update] at hnone

end Ccbase.Optimizer
