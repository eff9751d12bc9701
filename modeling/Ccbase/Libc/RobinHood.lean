import Ccbase.Lib.Ring
import Ccbase.Lib.Run
import Mathlib.Algebra.Order.BigOperators.Group.Finset

/-!
# `RobinHoodHashMap`

A table with linear probing in which an entry that is far from its home takes the
place of one that is nearer to its own. Each slot has the distance of its entry
from home, so that a search can stop early and a deletion knows which entries to
shift back.

When an entry takes the place of another, the code exchanges the two entries and
then the stored distance of the slot with the counter of the loop. These two are
equal at that point, so the counter does not become the distance of the entry that
was displaced, and what is stored for that entry later is too large.

Probe counters are unbounded integers, and so are capacities. The load factor is
compared as a fraction, which is what the division in `double` gives for
capacities below `2 ^ 52`.
-/

namespace Ccbase.Libc

open Ccbase.Lib

structure Entry (K V : Type) where
  key : K
  value : V
  probeDistance : Int
  occupied : Bool
  deriving DecidableEq, Repr

structure RobinHoodHashMap (K V : Type) where
  table : Nat → Entry K V
  capacity : Nat
  size : Nat

variable {K V : Type}

/-- `Entry()`. -/
def Entry.empty [Inhabited K] [Inhabited V] : Entry K V where
  key := default
  value := default
  probeDistance := -1
  occupied := false

namespace RobinHoodHashMap

section Code

variable [DecidableEq K] [Inhabited K] [Inhabited V] (hasher : K → Nat)

def hash (m : RobinHoodHashMap K V) (key : K) : Nat := hasher key % m.capacity

def nextIndex (m : RobinHoodHashMap K V) (idx : Nat) : Nat := (idx + 1) % m.capacity

/-- `load_factor() >= max_load_factor_`. -/
def overloaded (m : RobinHoodHashMap K V) : Bool := decide (3 * m.capacity ≤ 4 * m.size)

def setEntry (m : RobinHoodHashMap K V) (idx : Nat) (e : Entry K V) : RobinHoodHashMap K V :=
  { m with table := Function.update m.table idx e }

/-- The loop of `insert`; `none` if it does not end within the rounds. -/
def insertLoop (key : K) (value : V) :
    Nat → RobinHoodHashMap K V → Entry K V → Nat → Int → Option (RobinHoodHashMap K V)
  | 0, _, _, _, _ => none
  | rounds + 1, m, newEntry, idx, currentProbe =>
      if (m.table idx).occupied = false then
        some { m.setEntry idx newEntry with size := m.size + 1 }
      else if (m.table idx).key = key then
        some (m.setEntry idx { m.table idx with value := value })
      else if (m.table idx).probeDistance < currentProbe then
        -- the counter is exchanged with the distance of the entry that was put here
        let displaced := m.table idx
        let m := m.setEntry idx { newEntry with probeDistance := currentProbe }
        let currentProbe := newEntry.probeDistance
        insertLoop key value rounds m { displaced with probeDistance := currentProbe + 1 }
          (m.nextIndex idx) (currentProbe + 1)
      else
        insertLoop key value rounds m { newEntry with probeDistance := currentProbe + 1 }
          (m.nextIndex idx) (currentProbe + 1)

/-- `insert` behind the check of the load factor. -/
def insertEntry (m : RobinHoodHashMap K V) (key : K) (value : V) :
    Option (RobinHoodHashMap K V) :=
  insertLoop key value (m.capacity + 1) m ⟨key, value, 0, true⟩ (m.hash hasher key) 0

/-- The entries of the first `n` slots of the old table go into the new one. -/
def migrate (insert : RobinHoodHashMap K V → K → V → Option (RobinHoodHashMap K V))
    (old : Nat → Entry K V) : Nat → RobinHoodHashMap K V → Option (RobinHoodHashMap K V)
  | 0, m => some m
  | n + 1, m =>
      (migrate insert old n m).bind fun m =>
        if (old n).occupied = true then insert m (old n).key (old n).value else some m

def resizeWith (insert : RobinHoodHashMap K V → K → V → Option (RobinHoodHashMap K V))
    (newCapacity : Nat) (m : RobinHoodHashMap K V) : Option (RobinHoodHashMap K V) :=
  if newCapacity ≤ m.capacity then some m
  else migrate insert m.table m.capacity ⟨fun _ => .empty, newCapacity, 0⟩

/-- `insert`, in which a resize calls it again; `none` below that depth. -/
def insertAt : Nat → RobinHoodHashMap K V → K → V → Option (RobinHoodHashMap K V)
  | 0, _, _, _ => none
  | depth + 1, m, key, value =>
      (if m.overloaded then m.resizeWith (insertAt depth) (m.capacity * 2) else some m).bind
        fun m => m.insertEntry hasher key value

/-- The calls of `insert` within a resize do not resize. -/
def insert (m : RobinHoodHashMap K V) (key : K) (value : V) : Option (RobinHoodHashMap K V) :=
  m.insertAt hasher 2 key value

def resizeTable (m : RobinHoodHashMap K V) (newCapacity : Nat) : Option (RobinHoodHashMap K V) :=
  m.resizeWith (insertAt hasher 1) newCapacity

/-- The constructor; `none` is the exception. -/
def new (initialCapacity : Nat) : Option (RobinHoodHashMap K V) :=
  if initialCapacity = 0 then none
  else resizeTable hasher ⟨fun _ => .empty, 0, 0⟩ initialCapacity

/-- As many rounds as a search can take: the counter passes every distance. -/
def probeRounds (m : RobinHoodHashMap K V) : Nat :=
  (∑ i ∈ Finset.range m.capacity, (m.table i).probeDistance.toNat) + 2

/-- The loop of `find` and of `erase`: the slot of the key, if there is one. -/
def findLoop (m : RobinHoodHashMap K V) (key : K) : Nat → Nat → Int → Option (Option Nat)
  | 0, _, _ => none
  | rounds + 1, idx, currentProbe =>
      if (m.table idx).occupied = false then some none
      else if (m.table idx).key = key then some (some idx)
      else if (m.table idx).probeDistance < currentProbe then some none
      else findLoop m key rounds (m.nextIndex idx) (currentProbe + 1)

def findSlot (m : RobinHoodHashMap K V) (key : K) : Option (Option Nat) :=
  m.findLoop key m.probeRounds (m.hash hasher key) 0

/-- `find`: what the pointer that is returned points to. -/
def find (m : RobinHoodHashMap K V) (key : K) : Option (Option V) :=
  (m.findSlot hasher key).map fun r => r.map fun i => (m.table i).value

/-- A slot whose entry is shifted back. -/
abbrev Shiftable (m : RobinHoodHashMap K V) (i : Nat) : Prop :=
  (m.table i).occupied = true ∧ 0 < (m.table i).probeDistance

/-- The entry of the next slot goes to slot `idx`. -/
def shiftOne (m : RobinHoodHashMap K V) (idx : Nat) : RobinHoodHashMap K V :=
  let next := m.nextIndex idx
  (m.setEntry idx { m.table next with probeDistance := (m.table next).probeDistance - 1 }).setEntry
    next { m.table next with occupied := false }

/-- The loop that shifts the entries behind a hole. -/
def shiftLoop : Nat → RobinHoodHashMap K V → Nat → Option (RobinHoodHashMap K V)
  | 0, _, _ => none
  | rounds + 1, m, idx =>
      if m.Shiftable (m.nextIndex idx) then shiftLoop rounds (m.shiftOne idx) (m.nextIndex idx)
      else some m

/-- Slot `i` without its entry. -/
def vacate (m : RobinHoodHashMap K V) (i : Nat) : RobinHoodHashMap K V :=
  { m.setEntry i { m.table i with occupied := false } with size := m.size - 1 }

/-- `erase`. -/
def erase (m : RobinHoodHashMap K V) (key : K) : Option (Bool × RobinHoodHashMap K V) :=
  (m.findSlot hasher key).bind fun r =>
    match r with
    | none => some (false, m)
    | some i => ((m.vacate i).shiftLoop m.probeRounds i).map fun m => (true, m)

end Code

/-! ## Where keys are -/

variable {hasher : K → Nat} {m : RobinHoodHashMap K V}

def occ (m : RobinHoodHashMap K V) (i : Nat) : Bool := (m.table i).occupied

def pair (m : RobinHoodHashMap K V) (i : Nat) : K × V := ((m.table i).key, (m.table i).value)

/-- The home of the entry of a slot. -/
def home (hasher : K → Nat) (m : RobinHoodHashMap K V) (i : Nat) : Nat :=
  m.hash hasher (m.table i).key

/-- A search that is `t` steps from its home `h` goes on there. -/
def Passes (m : RobinHoodHashMap K V) (h t : Nat) : Prop :=
  (m.table (Ring.slot m.capacity h t)).occupied = true ∧
    (t : Int) ≤ (m.table (Ring.slot m.capacity h t)).probeDistance

/-- Every entry is in reach of its home. Stored distances may be too large, but not
too small. -/
structure Reachable (hasher : K → Nat) (m : RobinHoodHashMap K V) : Prop where
  pos : 0 < m.capacity
  stored : ∀ s < m.capacity, m.occ s = true →
    (Ring.dist m.capacity (m.home hasher s) s : Int) ≤ (m.table s).probeDistance
  reach : ∀ s < m.capacity, m.occ s = true →
    ∀ t < Ring.dist m.capacity (m.home hasher s) s, m.Passes (m.home hasher s) t
  distinct : DistinctKeys m.capacity m.occ m.pair

/-- The invariant of a table between two calls. -/
structure Inv (hasher : K → Nat) (m : RobinHoodHashMap K V) : Prop
    extends Reachable hasher m where
  count : m.size = occupancy m.capacity m.occ

/-- The table stands for `f`. -/
def Rel (m : RobinHoodHashMap K V) (f : K → Option V) : Prop :=
  StandsFor m.capacity m.occ m.pair f

theorem hash_lt (hcap : 0 < m.capacity) (key : K) : m.hash hasher key < m.capacity :=
  Nat.mod_lt _ hcap

theorem home_lt (hcap : 0 < m.capacity) (s : Nat) : m.home hasher s < m.capacity :=
  hash_lt hcap _

theorem nextIndex_slot (h t : Nat) :
    m.nextIndex (Ring.slot m.capacity h t) = Ring.slot m.capacity h (t + 1) :=
  Ring.slot_succ

theorem probeDistance_lt_rounds {i : Nat} (hi : i < m.capacity) :
    (m.table i).probeDistance + 1 < m.probeRounds := by
  have hle := Finset.single_le_sum (f := fun i => (m.table i).probeDistance.toNat)
    (fun _ _ => Nat.zero_le _) (Finset.mem_range.mpr hi)
  rw [probeRounds]
  omega

/-! ## Searches -/

theorem findLoop_found [DecidableEq K] (hinv : Reachable hasher m) {s : Nat} (hs : s < m.capacity)
    (hocc : m.occ s = true) : ∀ (rounds t : Nat),
    t ≤ Ring.dist m.capacity (m.home hasher s) s →
    Ring.dist m.capacity (m.home hasher s) s < t + rounds →
    m.findLoop (m.table s).key rounds (Ring.slot m.capacity (m.home hasher s) t) t =
      some (some s) := by
  have hh : m.home hasher s < m.capacity := hash_lt hinv.pos _
  have hdist := Ring.dist_lt hh hs
  have hslot := Ring.slot_dist hh hs
  intro rounds
  induction rounds with
  | zero =>
      intro t _ hlt
      omega
  | succ rounds ih =>
      intro t hle hlt
      rw [findLoop]
      by_cases ht : t = Ring.dist m.capacity (m.home hasher s) s
      · rw [ht, hslot, if_neg (by rw [show (m.table s).occupied = true from hocc]; simp),
          if_pos rfl]
      · obtain ⟨htocc, htstored⟩ := hinv.reach s hs hocc t (by omega)
        have hkey : (m.table (Ring.slot m.capacity (m.home hasher s) t)).key ≠
            (m.table s).key := by
          intro hkey
          have hsame := hinv.distinct _ (Ring.slot_lt hinv.pos) s hs htocc hocc hkey
          have hback := Ring.dist_slot hh (show t < m.capacity by omega)
          rw [hsame] at hback
          omega
        rw [if_neg (by rw [htocc]; simp), if_neg hkey, if_neg (by omega), nextIndex_slot]
        exact ih (t + 1) (by omega) (by omega)

/-- A search ends in every table: its counter passes all stored distances. -/
theorem findLoop_returns [DecidableEq K] (key : K) (hcap : 0 < m.capacity) {h : Nat} :
    ∀ (rounds t : Nat),
    0 < rounds → (∀ s < m.capacity, (m.table s).probeDistance + 1 < (t + rounds : Nat)) →
    ∃ r, m.findLoop key rounds (Ring.slot m.capacity h t) t = some r ∧
      ∀ i, r = some i → i < m.capacity ∧ m.occ i = true ∧ (m.table i).key = key := by
  intro rounds
  induction rounds with
  | zero =>
      intro t hpos _
      omega
  | succ rounds ih =>
      intro t _ hbound
      have hi : Ring.slot m.capacity h t < m.capacity := Ring.slot_lt hcap
      have hb := hbound _ hi
      rw [findLoop]
      split
      · exact ⟨none, rfl, fun i h => by cases h⟩
      · rename_i hocc
        split
        · rename_i hkey
          refine ⟨_, rfl, fun i h => ?_⟩
          cases h
          exact ⟨hi, by simpa [occ] using hocc, hkey⟩
        · split
          · exact ⟨none, rfl, fun i h => by cases h⟩
          · rename_i hstored
            rw [nextIndex_slot]
            refine ih (t + 1) (by omega) fun s hs => ?_
            have := hbound s hs
            omega

theorem findSlot_returns [DecidableEq K] (hasher : K → Nat) (hcap : 0 < m.capacity) (key : K) :
    ∃ r, m.findSlot hasher key = some r ∧
      ∀ i, r = some i → i < m.capacity ∧ m.occ i = true ∧ (m.table i).key = key := by
  have hh : m.hash hasher key < m.capacity := hash_lt hcap key
  have hrounds : 0 < m.probeRounds := by
    rw [probeRounds]
    omega
  have hfound := findLoop_returns key (h := m.hash hasher key) hcap m.probeRounds 0
    hrounds fun s hs => by
      have := probeDistance_lt_rounds hs
      omega
  rw [Ring.slot_zero hh] at hfound
  exact hfound

theorem findSlot_present [DecidableEq K] (hinv : Reachable hasher m) {s : Nat} (hs : s < m.capacity)
    (hocc : m.occ s = true) : m.findSlot hasher (m.table s).key = some (some s) := by
  have hh : m.home hasher s < m.capacity := hash_lt hinv.pos _
  have hbound := probeDistance_lt_rounds hs
  have hstored := hinv.stored s hs hocc
  have hfound := findLoop_found hinv hs hocc m.probeRounds 0 (Nat.zero_le _) (by omega)
  rw [Ring.slot_zero hh] at hfound
  exact hfound

theorem findSlot_absent [DecidableEq K] (hasher : K → Nat) (hcap : 0 < m.capacity) {key : K}
    (habsent : ∀ s < m.capacity, m.occ s = true → (m.table s).key ≠ key) :
    m.findSlot hasher key = some none := by
  obtain ⟨r, hr, hspec⟩ := findSlot_returns hasher hcap key
  rw [hr]
  cases r with
  | none => rfl
  | some i =>
      obtain ⟨hi, hocc, hkey⟩ := hspec i rfl
      exact absurd hkey (habsent i hi hocc)

theorem rel_none_iff {f : K → Option V} (hrel : m.Rel f) (key : K) :
    f key = none ↔ ∀ s < m.capacity, m.occ s = true → (m.table s).key ≠ key := by
  rw [← not_iff_not, ← ne_eq, ne_none_iff hrel]
  push Not
  rfl

theorem find_spec [DecidableEq K] (hinv : Reachable hasher m) {f : K → Option V} (hrel : m.Rel f)
    (key : K) :
    m.find hasher key = some (f key) := by
  cases hf : f key with
  | some v =>
      obtain ⟨s, hs, hocc, hpair⟩ := (hrel key v).mp hf
      have hkey : (m.table s).key = key := congrArg Prod.fst hpair
      have hvalue : (m.table s).value = v := congrArg Prod.snd hpair
      have hslot := findSlot_present hinv hs hocc
      rw [hkey] at hslot
      rw [find, hslot, Option.map_some, Option.map_some, hvalue]
  | none =>
      rw [find, findSlot_absent hasher hinv.pos ((rel_none_iff hrel key).mp hf)]
      rfl

/-! ## One entry is written -/

theorem setEntry_occ (i : Nat) (e : Entry K V) :
    (m.setEntry i e).occ = Function.update m.occ i e.occupied := by
  funext s
  by_cases hs : s = i
  · simp [occ, setEntry, hs]
  · simp [occ, setEntry, hs]

theorem setEntry_pair (i : Nat) (e : Entry K V) :
    (m.setEntry i e).pair = Function.update m.pair i (e.key, e.value) := by
  funext s
  by_cases hs : s = i
  · simp [pair, setEntry, hs]
  · simp [pair, setEntry, hs]

theorem setEntry_table_self (i : Nat) (e : Entry K V) : (m.setEntry i e).table i = e :=
  Function.update_self ..

theorem setEntry_table_of_ne {i s : Nat} (hs : s ≠ i) (e : Entry K V) :
    (m.setEntry i e).table s = m.table s :=
  Function.update_of_ne hs ..

/-- A search that goes on does so when the entry of a slot gets a larger distance. -/
theorem Passes.setEntry {h t i : Nat} {e : Entry K V} (he : e.occupied = true)
    (hgrow : m.occ i = true → (m.table i).probeDistance ≤ e.probeDistance)
    (hpass : m.Passes h t) : (m.setEntry i e).Passes h t := by
  obtain ⟨hocc, hstored⟩ := hpass
  by_cases hi : Ring.slot m.capacity h t = i
  · rw [hi] at hocc hstored
    have hle := hgrow hocc
    show ((m.setEntry i e).table (Ring.slot m.capacity h t)).occupied = true ∧
      (t : Int) ≤ ((m.setEntry i e).table (Ring.slot m.capacity h t)).probeDistance
    rw [hi, setEntry_table_self]
    exact ⟨he, by omega⟩
  · show ((m.setEntry i e).table (Ring.slot m.capacity h t)).occupied = true ∧
      (t : Int) ≤ ((m.setEntry i e).table (Ring.slot m.capacity h t)).probeDistance
    rw [setEntry_table_of_ne hi]
    exact ⟨hocc, hstored⟩

/-- An entry is put at `d` steps from its home, where the slot is free or has an entry
with a smaller distance. -/
theorem Reachable.setEntry (hinv : Reachable hasher m) {e : Entry K V} (he : e.occupied = true)
    {d : Nat} (hd : d < m.capacity) (hde : (d : Int) ≤ e.probeDistance)
    (hgrow : m.occ (Ring.slot m.capacity (m.hash hasher e.key) d) = true →
      (m.table (Ring.slot m.capacity (m.hash hasher e.key) d)).probeDistance ≤ e.probeDistance)
    (hbefore : ∀ t < d, m.Passes (m.hash hasher e.key) t)
    (habsent : ∀ s < m.capacity, s ≠ Ring.slot m.capacity (m.hash hasher e.key) d →
      m.occ s = true → (m.table s).key ≠ e.key) :
    Reachable hasher (m.setEntry (Ring.slot m.capacity (m.hash hasher e.key) d) e) := by
  have hh : m.hash hasher e.key < m.capacity := hash_lt hinv.pos _
  have hdist := Ring.dist_slot hh hd
  generalize Ring.slot m.capacity (m.hash hasher e.key) d = i at hgrow habsent hdist ⊢
  have hhome : (m.setEntry i e).home hasher i = m.hash hasher e.key := by
    show m.hash hasher ((m.setEntry i e).table i).key = _
    rw [setEntry_table_self]
  have hother : ∀ {s : Nat}, s ≠ i → (m.setEntry i e).home hasher s = m.home hasher s := by
    intro s hs
    show m.hash hasher ((m.setEntry i e).table s).key = _
    rw [setEntry_table_of_ne hs]
    rfl
  have hocc : ∀ {s : Nat}, s ≠ i → (m.setEntry i e).occ s = true → m.occ s = true := by
    intro s hs h
    rwa [setEntry_occ, Function.update_of_ne hs] at h
  refine ⟨hinv.pos, ?_, ?_, ?_⟩
  · intro s hs hsocc
    by_cases hsi : s = i
    · rw [hsi, hhome, setEntry_table_self]
      show (Ring.dist m.capacity (m.hash hasher e.key) i : Int) ≤ _
      rw [hdist]
      exact hde
    · rw [hother hsi, setEntry_table_of_ne hsi]
      exact hinv.stored s hs (hocc hsi hsocc)
  · intro s hs hsocc t ht
    by_cases hsi : s = i
    · rw [hsi, hhome] at ht ⊢
      replace ht : t < Ring.dist m.capacity (m.hash hasher e.key) i := ht
      rw [hdist] at ht
      exact (hbefore t ht).setEntry he hgrow
    · rw [hother hsi] at ht ⊢
      exact (hinv.reach s hs (hocc hsi hsocc) t ht).setEntry he hgrow
  · rw [setEntry_occ, setEntry_pair, he]
    exact hinv.distinct.set habsent e.value

/-- The map of a table in which a slot gets another key. -/
theorem Rel.setEntry [DecidableEq K] (hdistinct : DistinctKeys m.capacity m.occ m.pair)
    {f : K → Option V}
    (hrel : m.Rel f) {i : Nat} (hi : i < m.capacity) {e : Entry K V} (he : e.occupied = true)
    (hocc : m.occ i = true) (habsent : Function.update f (m.table i).key none e.key = none) :
    (m.setEntry i e).Rel
      (Function.update (Function.update f (m.table i).key none) e.key (some e.value)) := by
  have hset := (hrel.unset hdistinct hi hocc).set hi (Function.update_self ..) habsent e.value
  rw [Function.update_idem] at hset
  show StandsFor m.capacity (m.setEntry i e).occ (m.setEntry i e).pair _
  rw [setEntry_occ, setEntry_pair, he]
  exact hset

theorem Rel.setEntry_free [DecidableEq K] {f : K → Option V} (hrel : m.Rel f) {i : Nat}
    (hi : i < m.capacity)
    {e : Entry K V} (he : e.occupied = true) (hocc : m.occ i = false) (habsent : f e.key = none) :
    (m.setEntry i e).Rel (Function.update f e.key (some e.value)) := by
  show StandsFor m.capacity (m.setEntry i e).occ (m.setEntry i e).pair _
  rw [setEntry_occ, setEntry_pair, he]
  exact StandsFor.set hrel hi hocc habsent e.value

end RobinHoodHashMap

end Ccbase.Libc
