import Ccbase.Libc.RobinHood

/-!
# Insertion into a `RobinHoodHashMap`

The loop has an entry in hand, whose way from home is occupied up to here. Whether it
is put down, exchanged or carried on, the others stay in reach. A key that is there is
met before anything is displaced.
-/

namespace Ccbase.Libc

open Ccbase.Lib

variable {K V : Type}

namespace RobinHoodHashMap

variable {hasher : K → Nat} {m : RobinHoodHashMap K V}

/-- The entry that the loop has in hand, `d` steps from its home. -/
structure Carried (hasher : K → Nat) (m : RobinHoodHashMap K V) (f : K → Option V)
    (e : Entry K V) (d : Nat) : Prop where
  occupied : e.occupied = true
  absent : f e.key = none
  far : (d : Int) ≤ e.probeDistance
  way : ∀ t < d, m.Passes (m.hash hasher e.key) t

/-- The entry in hand is at most as far from its home as the next free slot. -/
theorem Carried.lt {f : K → Option V} {e : Entry K V} {d i : Nat}
    (hc : Carried hasher m f e d) (hi : i < m.capacity) (hfree : m.occ i = false) :
    d < m.capacity := by
  have hh : m.hash hasher e.key < m.capacity := hash_lt (by omega) _
  have hlt := Ring.dist_lt hh hi
  by_contra hd
  have hocc := (hc.way (Ring.dist m.capacity (m.hash hasher e.key) i) (by omega)).1
  rw [Ring.slot_dist hh hi, show (m.table i).occupied = false from hfree] at hocc
  cases hocc

theorem Inv.place (hinv : Inv hasher m) {f : K → Option V} (hrel : m.Rel f) {e : Entry K V}
    {d : Nat} (hc : Carried hasher m f e d)
    (hfree : m.occ (Ring.slot m.capacity (m.hash hasher e.key) d) = false) :
    Inv hasher { m.setEntry (Ring.slot m.capacity (m.hash hasher e.key) d) e with
      size := m.size + 1 } := by
  have hd := hc.lt (Ring.slot_lt hinv.pos) hfree
  obtain ⟨hpos, hstored, hreach, hdistinct⟩ := hinv.toReachable.setEntry hc.occupied hd hc.far
    (fun hocc => by rw [hfree] at hocc; cases hocc) hc.way
    fun s hs _ hocc => (rel_none_iff hrel _).mp hc.absent s hs hocc
  refine ⟨⟨hpos, hstored, hreach, hdistinct⟩, ?_⟩
  show m.size + 1 = occupancy m.capacity (m.setEntry _ e).occ
  rw [setEntry_occ, hc.occupied, occupancy_set (Ring.slot_lt hinv.pos) hfree, hinv.count]

/-- The entry in hand is exchanged with that of a slot. -/
theorem Inv.displace [DecidableEq K] (hinv : Inv hasher m) {f : K → Option V} (hrel : m.Rel f)
    {e : Entry K V}
    {d : Nat} (hc : Carried hasher m f e d) (hd : d < m.capacity) {i : Nat}
    (hi : i = Ring.slot m.capacity (m.hash hasher e.key) d) (hocc : m.occ i = true)
    (hless : (m.table i).probeDistance < e.probeDistance) :
    Inv hasher (m.setEntry i e) ∧
    (m.setEntry i e).Rel
      (Function.update (Function.update f (m.table i).key none) e.key (some e.value)) ∧
    Carried hasher (m.setEntry i e)
      (Function.update (Function.update f (m.table i).key none) e.key (some e.value))
      { m.table i with probeDistance := e.probeDistance + 1 }
      (Ring.dist m.capacity (m.home hasher i) i + 1) := by
  have hcap : i < m.capacity := hi ▸ Ring.slot_lt hinv.pos
  have habsent := (rel_none_iff hrel _).mp hc.absent
  have hne : (m.table i).key ≠ e.key := habsent i hcap hocc
  have hreach : Reachable hasher (m.setEntry i e) := by
    rw [hi] at hless ⊢
    exact hinv.toReachable.setEntry hc.occupied hd hc.far (fun _ => by omega) hc.way
      fun s hs _ hsocc => habsent s hs hsocc
  refine ⟨⟨hreach, ?_⟩, ?_, ?_⟩
  · show m.size = occupancy m.capacity (m.setEntry i e).occ
    rw [setEntry_occ, hc.occupied, ← hocc, Function.update_eq_self, hinv.count]
  · refine Rel.setEntry hinv.distinct hrel hcap hc.occupied hocc ?_
    rw [Function.update_of_ne (Ne.symm hne)]
    exact hc.absent
  · have hstored := hinv.stored i hcap hocc
    refine ⟨hocc, ?_, ?_, ?_⟩
    · show Function.update (Function.update f (m.table i).key none) e.key (some e.value)
        (m.table i).key = none
      rw [Function.update_of_ne hne, Function.update_self]
    · show ((Ring.dist m.capacity (m.home hasher i) i + 1 : Nat) : Int) ≤ e.probeDistance + 1
      omega
    · intro t ht
      by_cases htd : t = Ring.dist m.capacity (m.home hasher i) i
      · -- the slot itself, which now has the larger distance
        show ((m.setEntry i e).table (Ring.slot m.capacity (m.home hasher i) t)).occupied = true ∧
          (t : Int) ≤
            ((m.setEntry i e).table (Ring.slot m.capacity (m.home hasher i) t)).probeDistance
        rw [htd, Ring.slot_dist (home_lt hinv.pos i) hcap, setEntry_table_self]
        exact ⟨hc.occupied, by omega⟩
      · exact (hinv.reach i hcap hocc t (by omega)).setEntry hc.occupied fun _ => by omega

theorem insertLoop_absent [DecidableEq K] {key : K} (value : V) :
    ∀ (rounds n : Nat) {m : RobinHoodHashMap K V}
    {f : K → Option V} {e : Entry K V} {d idx : Nat}, Inv hasher m → m.Rel f →
    Carried hasher m f e d → idx = Ring.slot m.capacity (m.hash hasher e.key) d →
    n < rounds → n < m.capacity → m.occ (Ring.slot m.capacity idx n) = false →
    (∀ i < n, m.occ (Ring.slot m.capacity idx i) = true →
      (m.table (Ring.slot m.capacity idx i)).key ≠ key) →
    ∃ m', insertLoop key value rounds m e idx e.probeDistance = some m' ∧
      m'.capacity = m.capacity ∧ Inv hasher m' ∧
      m'.Rel (Function.update f e.key (some e.value)) := by
  intro rounds
  induction rounds with
  | zero =>
      intro n m f e d idx _ _ _ _ hn
      omega
  | succ rounds ih =>
      intro n m f e d idx hinv hrel hc hidx hn hncap hfree hkeys
      have hcap : idx < m.capacity := hidx ▸ Ring.slot_lt hinv.pos
      have hd := hc.lt (Ring.slot_lt hinv.pos) hfree
      rw [insertLoop]
      cases hocc : m.occ idx with
      | false =>
          rw [if_pos (show (m.table idx).occupied = false from hocc)]
          have hinv' := hinv.place hrel hc (by rw [← hidx]; exact hocc)
          rw [← hidx] at hinv'
          exact ⟨_, rfl, rfl, hinv', Rel.setEntry_free hrel hcap hc.occupied hocc hc.absent⟩
      | true =>
          obtain ⟨n, rfl⟩ : ∃ k, n = k + 1 := by
            refine ⟨n - 1, ?_⟩
            by_contra hzero
            rw [show n = 0 by omega, Ring.slot_zero hcap, hocc] at hfree
            cases hfree
          have hkey : (m.table idx).key ≠ key := by
            have := hkeys 0 (by omega)
            rw [Ring.slot_zero hcap] at this
            exact this hocc
          -- the slots behind, seen from the next one
          have hnext : ∀ i, Ring.slot m.capacity (m.nextIndex idx) i =
              Ring.slot m.capacity idx (i + 1) := by
            intro i
            show Ring.slot m.capacity (Ring.slot m.capacity idx 1) i = _
            rw [Ring.slot_slot, Nat.add_comm]
          rw [if_neg (by rw [show (m.table idx).occupied = true from hocc]; simp), if_neg hkey]
          split
          · rename_i hless
            obtain ⟨hinv', hrel', hc'⟩ := hinv.displace hrel hc hd hidx hocc hless
            have hother : ∀ i ≤ n, Ring.slot m.capacity idx (i + 1) ≠ idx := by
              intro i hi heq
              have hdist := Ring.dist_slot hcap (show i + 1 < m.capacity by omega)
              rw [heq, Ring.dist_self] at hdist
              omega
            have hidx' : m.nextIndex idx = Ring.slot m.capacity (m.hash hasher (m.table idx).key)
                (Ring.dist m.capacity (m.home hasher idx) idx + 1) := by
              rw [← nextIndex_slot, home, Ring.slot_dist (hash_lt hinv.pos _) hcap]
            obtain ⟨m', hloop, hcap', hinv'', hrel''⟩ := ih n hinv' hrel' hc' hidx' (by omega)
              (show n < m.capacity by omega)
              (by
                show (m.setEntry idx e).occ (Ring.slot m.capacity (m.nextIndex idx) n) = false
                rw [hnext, setEntry_occ, Function.update_of_ne (hother n (Nat.le_refl n))]
                exact hfree)
              (by
                intro i hi hiocc
                show ((m.setEntry idx e).table
                  (Ring.slot m.capacity (m.nextIndex idx) i)).key ≠ key
                replace hiocc : (m.setEntry idx e).occ
                  (Ring.slot m.capacity (m.nextIndex idx) i) = true := hiocc
                rw [hnext, setEntry_occ, Function.update_of_ne (hother i (by omega))] at hiocc
                rw [hnext, setEntry_table_of_ne (hother i (by omega))]
                exact hkeys (i + 1) (by omega) hiocc)
            refine ⟨m', hloop, hcap', hinv'', ?_⟩
            have hback : Function.update f e.key (some e.value) =
                Function.update (Function.update (Function.update f (m.table idx).key none)
                  e.key (some e.value)) (m.table idx).key (some (m.table idx).value) := by
              have hne : (m.table idx).key ≠ e.key :=
                (rel_none_iff hrel _).mp hc.absent idx hcap hocc
              have hidxf : Function.update f e.key (some e.value) (m.table idx).key =
                  some (m.table idx).value := by
                rw [Function.update_of_ne hne]
                exact (hrel _ _).mpr ⟨idx, hcap, hocc, rfl⟩
              rw [Function.update_comm hne, Function.update_idem, ← hidxf, Function.update_eq_self]
            rw [hback]
            exact hrel''
          · rename_i hmore
            have hc' : Carried hasher m f { e with probeDistance := e.probeDistance + 1 }
                (d + 1) := by
              refine ⟨hc.occupied, hc.absent, ?_, ?_⟩
              · have := hc.far
                show ((d + 1 : Nat) : Int) ≤ e.probeDistance + 1
                omega
              · intro t ht
                by_cases htd : t = d
                · have := hc.far
                  refine ⟨?_, ?_⟩
                  · show (m.table (Ring.slot m.capacity (m.hash hasher e.key) t)).occupied = true
                    rw [htd, ← hidx]
                    exact hocc
                  · show (t : Int) ≤
                      (m.table (Ring.slot m.capacity (m.hash hasher e.key) t)).probeDistance
                    rw [htd, ← hidx]
                    omega
                · exact hc.way t (by omega)
            have hidx' : m.nextIndex idx =
                Ring.slot m.capacity (m.hash hasher e.key) (d + 1) := by
              rw [hidx, nextIndex_slot]
            obtain ⟨m', hloop, hcap', hinv', hrel'⟩ := ih n hinv hrel hc' hidx' (by omega)
              (by omega) (by rw [hnext]; exact hfree)
              fun i hi => by
                rw [hnext]
                exact hkeys (i + 1) (by omega)
            exact ⟨m', hloop, hcap', hinv', hrel'⟩

/-- A key that is there gets its new value, and nothing is displaced on the way. -/
theorem insertLoop_found [DecidableEq K] (hinv : Reachable hasher m) {s : Nat} (hs : s < m.capacity)
    (hocc : m.occ s = true) (value : V) : ∀ (rounds t : Nat) (e : Entry K V),
    t ≤ Ring.dist m.capacity (m.home hasher s) s →
    Ring.dist m.capacity (m.home hasher s) s < t + rounds →
    insertLoop (m.table s).key value rounds m e (Ring.slot m.capacity (m.home hasher s) t) t =
      some (m.setEntry s { m.table s with value := value }) := by
  have hh : m.home hasher s < m.capacity := home_lt hinv.pos s
  have hdist := Ring.dist_lt hh hs
  have hslot := Ring.slot_dist hh hs
  intro rounds
  induction rounds with
  | zero =>
      intro t e _ hlt
      omega
  | succ rounds ih =>
      intro t e hle hlt
      rw [insertLoop]
      by_cases ht : t = Ring.dist m.capacity (m.home hasher s) s
      · rw [ht, hslot, if_neg (by rw [show (m.table s).occupied = true from hocc]; simp),
          if_pos rfl]
      · obtain ⟨htocc, htstored⟩ := hinv.reach s hs hocc t (by omega)
        have hkey : (m.table (Ring.slot m.capacity (m.home hasher s) t)).key ≠
            (m.table s).key := by
          intro hkey
          have hsame := hinv.distinct _ (Ring.slot_lt hinv.pos) s hs htocc hocc hkey
          have hback := Ring.dist_slot hh (show t < m.capacity by omega)
          rw [hsame] at hback
          omega
        rw [if_neg (by rw [htocc]; simp), if_neg hkey, if_neg (by omega), nextIndex_slot]
        exact ih (t + 1) _ (by omega) (by omega)

/-- The spec of `insert` behind the check of the load factor. -/
theorem insertEntry_spec [DecidableEq K] (hinv : Inv hasher m) {f : K → Option V} (hrel : m.Rel f)
    (hroom : m.size < m.capacity) (key : K) (value : V) :
    ∃ m', m.insertEntry hasher key value = some m' ∧ m'.capacity = m.capacity ∧
      Inv hasher m' ∧ m'.Rel (Function.update f key (some value)) := by
  have hh : m.hash hasher key < m.capacity := hash_lt hinv.pos key
  cases hf : f key with
  | none =>
      obtain ⟨i, hi, hfree⟩ := exists_free (by rw [← hinv.count]; exact hroom)
      have hc : Carried hasher m f ⟨key, value, 0, true⟩ 0 :=
        ⟨rfl, hf, Int.le_refl 0, fun t ht => absurd ht (Nat.not_lt_zero t)⟩
      refine insertLoop_absent value (m.capacity + 1)
        (Ring.dist m.capacity (m.hash hasher key) i) hinv hrel hc (Ring.slot_zero hh).symm ?_
        (Ring.dist_lt hh hi) (by rw [Ring.slot_dist hh hi]; exact hfree) ?_
      · have := Ring.dist_lt hh hi
        omega
      · intro t _ hocc
        exact (rel_none_iff hrel key).mp hf _ (Ring.slot_lt hinv.pos) hocc
  | some v =>
      obtain ⟨s, hs, hocc, hpair⟩ := (hrel key v).mp hf
      obtain rfl : key = (m.table s).key := (congrArg Prod.fst hpair).symm
      have hdist := Ring.dist_lt hh hs
      have hloop := insertLoop_found hinv.toReachable hs hocc value (m.capacity + 1) 0
        ⟨(m.table s).key, value, 0, true⟩ (Nat.zero_le _) (by rw [home]; omega)
      rw [home, Ring.slot_zero hh] at hloop
      refine ⟨_, hloop, rfl, ⟨?_, ?_⟩, ?_⟩
      · have hreach := hinv.toReachable.setEntry (e := { m.table s with value := value })
          (d := Ring.dist m.capacity (m.hash hasher (m.table s).key) s) hocc hdist
          (hinv.stored s hs hocc)
        dsimp only at hreach
        rw [Ring.slot_dist hh hs] at hreach
        refine hreach (fun _ => Int.le_refl _) (hinv.reach s hs hocc) ?_
        intro s' hs' hne hocc' heq
        exact hne (hinv.distinct s' hs' s hs hocc' hocc heq)
      · show m.size = occupancy m.capacity (m.setEntry s _).occ
        rw [setEntry_occ, show ({ m.table s with value := value } : Entry K V).occupied =
          m.occ s from rfl, Function.update_eq_self, hinv.count]
      · have hset := Rel.setEntry hinv.distinct hrel hs (e := { m.table s with value := value })
          hocc hocc (Function.update_self ..)
        dsimp only at hset
        rwa [Function.update_idem] at hset

/-! ## Growth -/

theorem empty_spec [Inhabited K] [Inhabited V] (hasher : K → Nat) {capacity : Nat}
    (hcap : 0 < capacity) :
    Inv hasher (⟨fun _ => .empty, capacity, 0⟩ : RobinHoodHashMap K V) ∧
      Rel (⟨fun _ => .empty, capacity, 0⟩ : RobinHoodHashMap K V) fun _ => none := by
  refine ⟨⟨⟨hcap, ?_, ?_, ?_⟩, ?_⟩, ?_⟩
  · intro s _ hocc
    cases hocc
  · intro s _ hocc
    cases hocc
  · intro s _ s' _ hocc
    cases hocc
  · exact (occupancy_none fun _ _ => rfl).symm
  · intro k v
    refine ⟨fun h => absurd h (by simp), ?_⟩
    rintro ⟨s, _, hocc, -⟩
    cases hocc

theorem Inv.size_eq (hinv : Inv hasher m) {f : K → Option V} (hrel : m.Rel f) :
    m.size = {k | f k ≠ none}.ncard := by
  rw [ncard_present hinv.distinct hrel, hinv.count]

variable [DecidableEq K] [Inhabited K] [Inhabited V]

theorem insertAt_spec (hinv : Inv hasher m) {f : K → Option V} (hrel : m.Rel f) (depth : Nat)
    (hload : 4 * m.size < 3 * m.capacity) (key : K) (value : V) :
    ∃ m', m.insertAt hasher (depth + 1) key value = some m' ∧ m'.capacity = m.capacity ∧
      Inv hasher m' ∧ m'.Rel (Function.update f key (some value)) := by
  have hover : m.overloaded = false := by
    rw [overloaded, decide_eq_false_iff_not]
    omega
  obtain ⟨m', hinsert, hspec⟩ := insertEntry_spec hinv hrel (by omega) key value
  refine ⟨m', ?_, hspec⟩
  rw [insertAt, hover, if_neg (by simp), Option.bind_some]
  exact hinsert

/-- The new table has the entries of the first `n` slots, and has not been resized. Of the
old one only its keys matter. -/
theorem migrate_spec (hasher : K → Nat) {old : RobinHoodHashMap K V} (hpos : 0 < old.capacity)
    (hold : DistinctKeys old.capacity old.occ old.pair) {newCapacity : Nat}
    (hnew : 2 * old.capacity ≤ newCapacity) : ∀ n ≤ old.capacity,
    ∃ m g, migrate (insertAt hasher 1) old.table n ⟨fun _ => .empty, newCapacity, 0⟩ = some m ∧
      m.capacity = newCapacity ∧ Inv hasher m ∧ m.Rel g ∧ StandsFor n old.occ old.pair g := by
  intro n
  induction n with
  | zero =>
      intro _
      obtain ⟨hinv, hrel⟩ := empty_spec (K := K) (V := V) hasher
        (show 0 < newCapacity by omega)
      refine ⟨_, _, rfl, rfl, hinv, hrel, fun k v => ⟨fun h => absurd h (by simp), ?_⟩⟩
      rintro ⟨s, hs, -⟩
      omega
  | succ n ih =>
      intro hn
      obtain ⟨m, g, hmigrate, hcap, hinv, hrel, hg⟩ := ih (by omega)
      have hdistinct : DistinctKeys n old.occ old.pair :=
        fun s hs s' hs' => hold s (by omega) s' (by omega)
      have hsize : m.size ≤ n := by
        rw [hinv.size_eq hrel, ncard_present hdistinct hg]
        exact occupancy_le
      rw [migrate, hmigrate, Option.bind_some]
      cases hocc : old.occ n with
      -- an empty slot has no entry to move
      | false =>
          rw [if_neg (by rw [show (old.table n).occupied = false from hocc]; simp)]
          refine ⟨m, g, rfl, hcap, hinv, hrel, fun k v => ?_⟩
          rw [hg k v]
          constructor
          · rintro ⟨s, hs, hrest⟩
            exact ⟨s, by omega, hrest⟩
          · rintro ⟨s, hs, hsocc, hpair⟩
            by_cases hsn : s = n
            · rw [hsn, hocc] at hsocc
              cases hsocc
            · exact ⟨s, by omega, hsocc, hpair⟩
      | true =>
          rw [if_pos (show (old.table n).occupied = true from hocc)]
          obtain ⟨m', hinsert, hcap', hinv', hrel'⟩ := insertAt_spec hinv hrel 0 (by omega)
            (old.table n).key (old.table n).value
          -- no other slot of the old table has the key
          have hnone : g (old.table n).key = none := by
            by_contra hsome
            obtain ⟨s, hs, hsocc, hkey⟩ := (ne_none_iff hg _).mp hsome
            have := hold s (by omega) n (by omega) hsocc hocc hkey
            omega
          refine ⟨m', _, hinsert, hcap'.trans hcap, hinv', hrel', fun k v => ?_⟩
          by_cases hk : k = (old.table n).key
          · rw [hk, Function.update_self]
            constructor
            · intro h
              cases h
              exact ⟨n, by omega, hocc, rfl⟩
            · rintro ⟨s, hs, hsocc, hpair⟩
              have hsn := hold s (by omega) n (by omega) hsocc hocc (by rw [hpair]; rfl)
              rw [hsn] at hpair
              rw [show (old.table n).value = v from congrArg Prod.snd hpair]
          · rw [Function.update_of_ne hk, hg k v]
            constructor
            · rintro ⟨s, hs, hrest⟩
              exact ⟨s, by omega, hrest⟩
            · rintro ⟨s, hs, hsocc, hpair⟩
              have hsn : s ≠ n := by
                rintro rfl
                exact hk (congrArg Prod.fst hpair).symm
              exact ⟨s, by omega, hsocc, hpair⟩

theorem insert_spec (hinv : Inv hasher m) {f : K → Option V} (hrel : m.Rel f) (key : K)
    (value : V) :
    ∃ m', m.insert hasher key value = some m' ∧ Inv hasher m' ∧
      m'.Rel (Function.update f key (some value)) := by
  have hpos := hinv.pos
  by_cases hload : 4 * m.size < 3 * m.capacity
  · obtain ⟨m', hinsert, -, hspec⟩ := insertAt_spec hinv hrel 1 hload key value
    exact ⟨m', hinsert, hspec⟩
  · have hover : m.overloaded = true := by
      rw [overloaded, decide_eq_true_iff]
      omega
    obtain ⟨m₁, g, hmigrate, hcap, hinv₁, hrel₁, hg⟩ := migrate_spec hasher hpos hinv.distinct
      (show 2 * m.capacity ≤ m.capacity * 2 by omega) m.capacity (Nat.le_refl _)
    have hgf : g = f := hg.unique hrel
    have hsize : m₁.size ≤ m.capacity := by
      rw [hinv₁.size_eq hrel₁, hgf, ← hinv.size_eq hrel, hinv.count]
      exact occupancy_le
    obtain ⟨m', hinsert, -, hinv', hrel'⟩ := insertEntry_spec hinv₁ hrel₁ (by omega) key value
    refine ⟨m', ?_, hinv', hgf ▸ hrel'⟩
    rw [insert, insertAt, hover, if_pos rfl, resizeWith, if_neg (by omega), hmigrate,
      Option.bind_some]
    exact hinsert

end RobinHoodHashMap

end Ccbase.Libc
