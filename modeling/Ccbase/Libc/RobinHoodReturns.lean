import Ccbase.Libc.RobinHoodErase

/-!
# Calls of a `RobinHoodHashMap` return

Neither the keys nor the stored distances matter for this. A search stops at the
latest when its counter has passed every distance. An insertion reaches the free
slot that the check of the load factor leaves; what it displaces on the way keeps
its slot occupied. The shift of a deletion takes one off the sum of the distances
with each step, also in a table without a free slot, where it runs after its own
hole.
-/

namespace Ccbase.Libc

open Ccbase.Lib

variable {K V : Type}

namespace RobinHoodHashMap

variable {hasher : K → Nat} {m : RobinHoodHashMap K V}

/-- All that is needed of a table: the size is right. -/
structure Counted (m : RobinHoodHashMap K V) : Prop where
  pos : 0 < m.capacity
  count : m.size = occupancy m.capacity m.occ

theorem Inv.counted (hinv : Inv hasher m) : Counted m := ⟨hinv.pos, hinv.count⟩

theorem find_returns [DecidableEq K] (hasher : K → Nat) (hcap : 0 < m.capacity) (key : K) :
    (m.find hasher key).isSome := by
  obtain ⟨r, hr, -⟩ := findSlot_returns hasher hcap key
  rw [find, hr]
  rfl

/-! ## Insertion -/

theorem Counted.setEntry (hm : Counted m) {i : Nat} {e : Entry K V} (hi : m.occ i = true)
    (he : e.occupied = true) : Counted (m.setEntry i e) := by
  refine ⟨hm.pos, ?_⟩
  show m.size = occupancy m.capacity (m.setEntry i e).occ
  rw [setEntry_occ, he, ← hi, Function.update_eq_self, hm.count]

theorem Counted.place (hm : Counted m) {i : Nat} {e : Entry K V} (hi : i < m.capacity)
    (hfree : m.occ i = false) (he : e.occupied = true) :
    Counted { m.setEntry i e with size := m.size + 1 } := by
  refine ⟨hm.pos, ?_⟩
  show m.size + 1 = occupancy m.capacity (m.setEntry i e).occ
  rw [setEntry_occ, he, occupancy_set hi hfree, hm.count]

/-- The loop ends at the next free slot, `n` steps ahead, or before. -/
theorem insertLoop_returns [DecidableEq K] {key : K} (value : V) :
    ∀ (rounds n : Nat) {m : RobinHoodHashMap K V}
    {e : Entry K V} {idx : Nat} {currentProbe : Int}, Counted m → e.occupied = true →
    idx < m.capacity → n < rounds → n < m.capacity → m.occ (Ring.slot m.capacity idx n) = false →
    ∃ m', insertLoop key value rounds m e idx currentProbe = some m' ∧
      m'.capacity = m.capacity ∧ m'.size ≤ m.size + 1 ∧ Counted m' := by
  intro rounds
  induction rounds with
  | zero =>
      intro n m e idx currentProbe _ _ _ hn
      omega
  | succ rounds ih =>
      intro n m e idx currentProbe hm he hidx hn hncap hfree
      rw [insertLoop]
      cases hocc : m.occ idx with
      | false =>
          rw [if_pos (show (m.table idx).occupied = false from hocc)]
          exact ⟨_, rfl, rfl, Nat.le_refl _, hm.place hidx hocc he⟩
      | true =>
          obtain ⟨n, rfl⟩ : ∃ k, n = k + 1 := by
            refine ⟨n - 1, ?_⟩
            by_contra hzero
            rw [show n = 0 by omega, Ring.slot_zero hidx, hocc] at hfree
            cases hfree
          have hnext : Ring.slot m.capacity (m.nextIndex idx) n =
              Ring.slot m.capacity idx (n + 1) := by
            show Ring.slot m.capacity (Ring.slot m.capacity idx 1) n = _
            rw [Ring.slot_slot, Nat.add_comm]
          have hlt := nextIndex_lt hidx
          rw [if_neg (by rw [show (m.table idx).occupied = true from hocc]; simp)]
          split
          · exact ⟨_, rfl, rfl, Nat.le_succ _, hm.setEntry hocc hocc⟩
          · split
            · -- the slot stays occupied, so the free one is still ahead
              have hm' := hm.setEntry (e := { e with probeDistance := currentProbe }) hocc he
              refine ih n hm' hocc hlt (by omega) (show n < m.capacity by omega) ?_
              show (m.setEntry idx _).occ (Ring.slot m.capacity (m.nextIndex idx) n) = false
              have hne : Ring.slot m.capacity idx (n + 1) ≠ idx := by
                intro heq
                rw [heq, hocc] at hfree
                cases hfree
              rw [hnext, setEntry_occ, Function.update_of_ne hne]
              exact hfree
            · exact ih n hm he hlt (by omega) (by omega) (by rw [hnext]; exact hfree)

theorem insertEntry_returns [DecidableEq K] (hasher : K → Nat) (hm : Counted m)
    (hroom : m.size < m.capacity)
    (key : K) (value : V) :
    ∃ m', m.insertEntry hasher key value = some m' ∧ m'.capacity = m.capacity ∧
      m'.size ≤ m.size + 1 ∧ Counted m' := by
  have hh : m.hash hasher key < m.capacity := hash_lt hm.pos key
  obtain ⟨i, hi, hfree⟩ := exists_free (by rw [← hm.count]; exact hroom)
  have hlt := Ring.dist_lt hh hi
  refine insertLoop_returns value (m.capacity + 1) (Ring.dist m.capacity (m.hash hasher key) i) hm
    rfl hh (by omega) hlt ?_
  rw [Ring.slot_dist hh hi]
  exact hfree

theorem insertAt_returns [DecidableEq K] [Inhabited K] [Inhabited V] (hasher : K → Nat)
    (hm : Counted m) (depth : Nat)
    (hload : m.overloaded = false) (key : K) (value : V) :
    ∃ m', m.insertAt hasher (depth + 1) key value = some m' ∧ m'.capacity = m.capacity ∧
      m'.size ≤ m.size + 1 ∧ Counted m' := by
  have hroom : m.size < m.capacity := by
    have hpos := hm.pos
    rw [overloaded, decide_eq_false_iff_not] at hload
    omega
  rw [insertAt, hload, if_neg (by simp), Option.bind_some]
  exact insertEntry_returns hasher hm hroom key value

/-- While the entries of an old table go into one of at least twice the capacity, the new
one is never overloaded. -/
theorem migrate_returns [DecidableEq K] [Inhabited K] [Inhabited V] (hasher : K → Nat)
    (old : RobinHoodHashMap K V) {newCapacity : Nat}
    (hpos : 0 < old.capacity) (hnew : 2 * old.capacity ≤ newCapacity) : ∀ n ≤ old.capacity,
    ∃ m, migrate (insertAt hasher 1) old.table n ⟨fun _ => .empty, newCapacity, 0⟩ = some m ∧
      m.capacity = newCapacity ∧ m.size ≤ n ∧ Counted m ∧ m.overloaded = false := by
  have hover : ∀ {m : RobinHoodHashMap K V}, m.capacity = newCapacity →
      m.size ≤ old.capacity → m.overloaded = false := by
    intro m hcap hsize
    rw [overloaded, decide_eq_false_iff_not]
    omega
  intro n
  induction n with
  | zero =>
      intro _
      have hcounted := (empty_spec (K := K) (V := V) hasher
        (show 0 < newCapacity by omega)).1.counted
      exact ⟨_, rfl, rfl, Nat.le_refl 0, hcounted, hover rfl (Nat.zero_le _)⟩
  | succ n ih =>
      intro hn
      obtain ⟨m, hmigrate, hcap, hsize, hm, hload⟩ := ih (by omega)
      rw [migrate, hmigrate, Option.bind_some]
      split
      · obtain ⟨m', hinsert, hcap', hsize', hm'⟩ :=
          insertAt_returns hasher hm 0 hload (old.table n).key (old.table n).value
        have hcap'' := hcap'.trans hcap
        exact ⟨m', hinsert, hcap'', by omega, hm', hover hcap'' (by omega)⟩
      · exact ⟨m, rfl, hcap, by omega, hm, hload⟩

theorem insert_returns [DecidableEq K] [Inhabited K] [Inhabited V] (hasher : K → Nat)
    (hm : Counted m) (key : K) (value : V) :
    ∃ m', m.insert hasher key value = some m' ∧ Counted m' := by
  cases hload : m.overloaded with
  | false =>
      obtain ⟨m', hinsert, -, -, hm'⟩ := insertAt_returns hasher hm 1 hload key value
      exact ⟨m', hinsert, hm'⟩
  | true =>
      have hpos := hm.pos
      obtain ⟨m₁, hmigrate, hcap, hsize, hm₁, -⟩ := migrate_returns hasher m
        hpos (show 2 * m.capacity ≤ m.capacity * 2 by omega) m.capacity (Nat.le_refl _)
      obtain ⟨m', hinsert, -, -, hm'⟩ :=
        insertEntry_returns hasher hm₁ (by omega) key value
      refine ⟨m', ?_, hm'⟩
      rw [insert, insertAt, hload, if_pos rfl, resizeWith, if_neg (by omega), hmigrate,
        Option.bind_some]
      exact hinsert

/-! ## Deletion -/

theorem shiftLoop_returns : ∀ (rounds : Nat) {m : RobinHoodHashMap K V} {i : Nat},
    Counted m → i < m.capacity → m.occ i = false →
    ∑ s ∈ Finset.range m.capacity, m.weight s < rounds →
    ∃ m', m.shiftLoop rounds i = some m' ∧ Counted m' := by
  intro rounds
  induction rounds with
  | zero =>
      intro m i _ _ _ hlt
      omega
  | succ rounds ih =>
      intro m i hm hi hfree hlt
      rw [shiftLoop]
      by_cases hshift : m.Shiftable (m.nextIndex i)
      · have hocc : m.occ (m.nextIndex i) = true := hshift.1
        have hweight := shiftOne_weight hi hfree hshift
        have hm' : Counted (m.shiftOne i) :=
          ⟨hm.pos, hm.count.trans (shiftOne_occupancy hi hfree hocc).symm⟩
        rw [if_pos hshift]
        refine ih hm' (nextIndex_lt hi) ?_
          (show ∑ s ∈ Finset.range m.capacity, (m.shiftOne i).weight s < rounds by omega)
        rw [occ, shiftOne_next]
      · rw [if_neg hshift]
        exact ⟨m, rfl, hm⟩

theorem erase_returns [DecidableEq K] (hasher : K → Nat) (hm : Counted m) (key : K) :
    ∃ b m', m.erase hasher key = some (b, m') ∧ Counted m' := by
  obtain ⟨r, hr, hspec⟩ := findSlot_returns hasher hm.pos key
  cases r with
  | none =>
      refine ⟨false, m, ?_, hm⟩
      rw [erase, hr]
      rfl
  | some i =>
      obtain ⟨hi, hocc, -⟩ := hspec i rfl
      obtain ⟨m', hloop, hm'⟩ := shiftLoop_returns m.probeRounds (m := m.vacate i)
        ⟨hm.pos, vacate_count hm.count hi hocc⟩ hi
        (by rw [vacate_occ, Function.update_self]) (vacate_weight i)
      refine ⟨true, m', ?_, hm'⟩
      rw [erase, hr, Option.bind_some]
      show ((m.vacate i).shiftLoop m.probeRounds i).map _ = _
      rw [hloop]
      rfl

theorem exec_returns [DecidableEq K] [Inhabited K] [Inhabited V] (hasher : K → Nat)
    (hm : Counted m) (op : Op K V) :
    ∃ out m', m.exec hasher op = some (out, m') ∧ Counted m' := by
  cases op with
  | insert key value =>
      obtain ⟨m', hinsert, hm'⟩ := insert_returns hasher hm key value
      refine ⟨.done, m', ?_, hm'⟩
      rw [exec, hinsert]
      rfl
  | find key =>
      obtain ⟨r, hr⟩ := Option.isSome_iff_exists.mp (find_returns hasher hm.pos key)
      refine ⟨.found r, m, ?_, hm⟩
      rw [exec, hr]
      rfl
  | erase key =>
      obtain ⟨b, m', herase, hm'⟩ := erase_returns hasher hm key
      refine ⟨.erased b, m', ?_, hm'⟩
      rw [exec, herase]
      rfl
  | size => exact ⟨.size m.size, m, rfl, hm⟩

end RobinHoodHashMap

variable [DecidableEq K] [Inhabited K] [Inhabited V]

/-- In every run, also one whose deletions hide keys, each call returns and the size is
the number of occupied slots. -/
theorem robinHood_returns (hasher : K → Nat) {initialCapacity : Nat} (hcap : 0 < initialCapacity) :
    ∃ m₀ : RobinHoodHashMap K V, RobinHoodHashMap.new hasher initialCapacity = some m₀ ∧
      ∀ ls m, Run (RobinHoodHashMap.Step hasher) m₀ ls m →
        m.size = occupancy m.capacity m.occ ∧ ∀ op, (m.exec hasher op).isSome := by
  have hnew : RobinHoodHashMap.new hasher initialCapacity =
      some (⟨fun _ => .empty, initialCapacity, 0⟩ : RobinHoodHashMap K V) := by
    rw [RobinHoodHashMap.new, if_neg (by omega), RobinHoodHashMap.resizeTable,
      RobinHoodHashMap.resizeWith, if_neg (by dsimp only; omega)]
    rfl
  refine ⟨_, hnew, fun ls m hrun => ?_⟩
  have hm : RobinHoodHashMap.Counted m := by
    refine hrun.state_inv (RobinHoodHashMap.new_spec hnew).1.counted ?_
    rintro m ⟨op, out⟩ m' hm hstep
    obtain ⟨out', m'', hexec, hm''⟩ := RobinHoodHashMap.exec_returns hasher hm op
    rw [RobinHoodHashMap.Step, hexec] at hstep
    cases hstep
    exact hm''
  refine ⟨hm.count, fun op => ?_⟩
  obtain ⟨out, m', hexec, -⟩ := RobinHoodHashMap.exec_returns hasher hm op
  rw [hexec]
  rfl

/-- A map of one slot. -/
theorem robinHood_returns_one : ∃ m₀ : RobinHoodHashMap Nat Nat,
    RobinHoodHashMap.new id 1 = some m₀ ∧
      ∀ ls m, Run (RobinHoodHashMap.Step id) m₀ ls m →
        m.size = occupancy m.capacity m.occ ∧ ∀ op, (m.exec id op).isSome :=
  robinHood_returns id (by decide)

/-! ## A table of any origin grows -/

namespace RobinHoodHashMap

/-- A table with pairwise distinct keys, in whatever slots and with whatever distances, is
put in order by a resize. No insertion of the resize finds the table overloaded, and
afterwards every run without deletions is one of the finite map. -/
theorem resizeTable_spec (hasher : K → Nat) {m : RobinHoodHashMap K V} (hpos : 0 < m.capacity)
    (hdistinct : DistinctKeys m.capacity m.occ m.pair) :
    ∃ m' f, m.resizeTable hasher (2 * m.capacity) = some m' ∧ m.Rel f ∧
      (∀ key, m'.find hasher key = some (f key)) ∧ m'.size = occupancy m.capacity m.occ ∧
      (∀ n ≤ m.capacity, ∃ mid,
        migrate (insertAt hasher 1) m.table n ⟨fun _ => .empty, 2 * m.capacity, 0⟩ = some mid ∧
          mid.overloaded = false) ∧
      ∀ ls m'', Run (fun m l m' => Step hasher m l m' ∧ ∀ key, l.1 ≠ .erase key) m' ls m'' →
        ∃ g, Run (fun f l f' => Spec f l.1 l.2 f') f ls g ∧
          ∀ key, m''.find hasher key = some (g key) := by
  obtain ⟨m', f, hmigrate, -, hinv, hrel, hf⟩ := migrate_spec hasher hpos hdistinct
    (Nat.le_refl _) m.capacity (Nat.le_refl _)
  refine ⟨m', f, ?_, hf, find_spec hinv.toReachable hrel, ?_, ?_, ?_⟩
  · rw [resizeTable, resizeWith, if_neg (by omega)]
    exact hmigrate
  · rw [hinv.size_eq hrel, ncard_present hdistinct hf]
  · intro n hn
    obtain ⟨mid, hmid, -, -, -, hload⟩ := migrate_returns hasher m hpos (Nat.le_refl _) n hn
    exact ⟨mid, hmid, hload⟩
  · intro ls m'' hrun
    have hend : Inv hasher m'' ∧
        ∃ g, Run (fun f l f' => Spec f l.1 l.2 f') f ls g ∧ m''.Rel g := by
      refine hrun.inv (I := fun ls m'' => Inv hasher m'' ∧
        ∃ g, Run (fun f l f' => Spec f l.1 l.2 f') f ls g ∧ m''.Rel g) ?_ ?_
      · exact ⟨hinv, f, .nil, hrel⟩
      · rintro ls s ⟨op, out⟩ s' ⟨hinv, g, hg, hrel⟩ ⟨hstep, hnot⟩
        have hmeets : s.Meets hasher op := by
          cases op with
          | erase key => exact absurd rfl (hnot key)
          | insert key value => trivial
          | find key => trivial
          | size => trivial
        obtain ⟨out', s'', g', hexec, hspec, hinv', hrel'⟩ := exec_spec hinv hrel hmeets
        rw [Step, hexec] at hstep
        cases hstep
        exact ⟨hinv', g', hg.snoc hspec, hrel'⟩
    obtain ⟨hinv'', g, hg, hrel''⟩ := hend
    exact ⟨g, hg, find_spec hinv''.toReachable hrel''⟩

/-- Two keys in slots and with distances that no search expects. -/
def scattered : RobinHoodHashMap Nat Nat where
  table i := if i = 0 then ⟨5, 50, 9, true⟩ else ⟨2, 20, -4, true⟩
  capacity := 2
  size := 7

theorem resizeTable_spec_scattered : ∃ m', scattered.resizeTable id 4 = some m' ∧
    m'.find id 5 = some (some 50) ∧ m'.find id 2 = some (some 20) := by
  have hdistinct : DistinctKeys scattered.capacity scattered.occ scattered.pair := by
    unfold DistinctKeys
    decide
  obtain ⟨m', f, hresize, hf, hfind, -⟩ := resizeTable_spec id (by decide) hdistinct
  refine ⟨m', hresize, ?_, ?_⟩
  · rw [hfind, (hf 5 50).mpr ⟨0, by decide, rfl, rfl⟩]
  · rw [hfind, (hf 2 20).mpr ⟨1, by decide, rfl, rfl⟩]

end RobinHoodHashMap

end Ccbase.Libc
