import Ccbase.Lib.Run
import Ccbase.Memory.VmmAdapter

/-!
# Overlapping mappings

`Map` and `Unmap` of the driver with any addresses. A mapping covers the 2MB
behind its address, and two of them are not supposed to overlap. `Map` looks at
the next mapping above the address, and at the one below only if there is one
above; both ends are computed in 64 bits. This module says for which calls the
two looks are enough.
-/

namespace Ccbase.Memory

open Ccbase.Lib

/-- The 2MB behind `j` and the 2MB behind `k` have an address in common. -/
def Overlaps (j k : Nat) : Prop := j < k + kDefaultMapSize ∧ k < j + kDefaultMapSize

instance (j k : Nat) : Decidable (Overlaps j k) := inferInstanceAs (Decidable (_ ∧ _))

theorem Overlaps.symm {j k : Nat} (h : Overlaps j k) : Overlaps k j := ⟨h.2, h.1⟩

theorem overlaps_self (k : Nat) : Overlaps k k :=
  ⟨Nat.lt_add_of_pos_right (by decide), Nat.lt_add_of_pos_right (by decide)⟩

inductive TableCall where
  | map (handle addr : Nat)
  | unmap (addr : Nat)
  deriving DecidableEq, Repr

def TableCall.addr : TableCall → Nat
  | .map _ addr => addr
  | .unmap addr => addr

namespace VmmManager

variable {m m' : VmmManager} {addr : Nat}

/-- The keys of `mapped_addrs_`. -/
def mappedKeys (m : VmmManager) : List Nat := m.mappedAddrs.entries.map Prod.fst

theorem mem_mappedKeys {k : Nat} :
    k ∈ m.mappedKeys ↔ ∃ handle, (k, handle) ∈ m.mappedAddrs.entries := by
  simp [mappedKeys]

theorem mem_mappedKeys_iff_find? {k : Nat} :
    k ∈ m.mappedKeys ↔ (m.mappedAddrs.find? k).isSome :=
  OrdMap.mem_keys_iff

/-- A call that throws has changed nothing: both functions throw before their
first write. -/
def after (m : VmmManager) : TableCall → VmmManager
  | .map handle addr => ((m.map handle addr).map Prod.snd).getD m
  | .unmap addr => ((m.unmap addr).map Prod.snd).getD m

/-- The mapped ranges are pairwise disjoint. -/
def RangesDisjoint (m : VmmManager) : Prop :=
  ∀ j ∈ m.mappedKeys, ∀ k ∈ m.mappedKeys, Overlaps j k → j = k

instance (m : VmmManager) : Decidable m.RangesDisjoint :=
  inferInstanceAs (Decidable (∀ j ∈ _, ∀ k ∈ _, _))

/-- What `Map` is supposed to do at `addr`. -/
structure MapRight (handle addr : Nat) (m : VmmManager) : Prop where
  throws : (∃ k ∈ m.mappedKeys, Overlaps addr k) → m.map handle addr = none
  succeeds : (∀ k ∈ m.mappedKeys, ¬ Overlaps addr k) →
    ∃ m', m.map handle addr = some (true, m') ∧
      ∀ k, m'.mappedAddrs.find? k = if k = addr then some handle else m.mappedAddrs.find? k

/-- The mappings at `addr` and next to it are looked at, and their ends are
computed without wrapping around, as far as it matters. -/
def NeighboursSeen (addr : Nat) (m : VmmManager) : Prop :=
  addr ∈ m.mappedKeys ∨
  ((∃ k ∈ m.mappedKeys, addr < k) ∧
    (addr + kDefaultMapSize < sizeBound ∨
      ∃ k ∈ m.mappedKeys, k < addr ∧ addr < k + kDefaultMapSize)) ∨
  ∀ k ∈ m.mappedKeys, k + kDefaultMapSize ≤ addr

instance (addr : Nat) (m : VmmManager) : Decidable (m.NeighboursSeen addr) :=
  inferInstanceAs (Decidable (_ ∨ _ ∨ _))

/-! ## One call of `Map` -/

theorem map_of_mapped (handle : Nat) (h : addr ∈ m.mappedKeys) : m.map handle addr = none := by
  rw [map, if_pos (mem_mappedKeys_iff_find?.mp h)]

theorem map_of_near (handle : Nat) (h : m.nearMapped addr = true) :
    m.map handle addr = none := by
  rw [map, if_pos h, ite_self]

/-- The manager after a `Map` that succeeds. -/
def withMapping (handle addr : Nat) (m : VmmManager) : VmmManager :=
  { m with
    objects := m.objects.modify handle (MemHandle.map addr)
    mappedAddrs := m.mappedAddrs.emplace addr handle }

theorem map_of_free (handle : Nat) (hkey : addr ∉ m.mappedKeys)
    (hnear : m.nearMapped addr = false) :
    m.map handle addr = some (true, m.withMapping handle addr) := by
  have hnone : ¬ (m.mappedAddrs.find? addr).isSome := fun h => hkey (mem_mappedKeys_iff_find?.mpr h)
  rw [map, if_neg hnone, if_neg (by simp [hnear])]
  rfl

theorem find?_withMapping (handle : Nat) (hkey : addr ∉ m.mappedKeys) (k : Nat) :
    (m.withMapping handle addr).mappedAddrs.find? k =
      if k = addr then some handle else m.mappedAddrs.find? k := by
  have hnone : m.mappedAddrs.find? addr = none := by
    rw [← Option.not_isSome_iff_eq_none]
    exact fun h => hkey (mem_mappedKeys_iff_find?.mpr h)
  exact OrdMap.find?_emplace_of_none handle hnone k

/-- With nothing above, the check does not look below. -/
theorem nearMapped_of_last (h : ∀ k ∈ m.mappedKeys, k ≤ addr) : m.nearMapped addr = false := by
  rw [nearMapped]
  cases hup : m.mappedAddrs.upper? addr with
  | none => rfl
  | some e =>
      obtain ⟨hmem, hlt⟩ := OrdMap.upper?_eq_some hup
      have := h e.1 (mem_mappedKeys.mpr ⟨e.2, hmem⟩)
      omega

/-- A mapping ends before the next one begins. -/
theorem RangesDisjoint.end_le (hd : m.RangesDisjoint) {j k : Nat} (hj : j ∈ m.mappedKeys)
    (hk : k ∈ m.mappedKeys) (hjk : j < k) : j + kDefaultMapSize ≤ k := by
  by_contra hlt
  have := hd j hj k hk ⟨by omega, by omega⟩
  omega

/-- With a mapping above, the check is about the neighbours of `addr`, except
that the end of the new range may have wrapped around. -/
theorem nearMapped_iff (hd : m.RangesDisjoint) (hbound : ∀ k ∈ m.mappedKeys, k < sizeBound)
    (hkey : addr ∉ m.mappedKeys) (habove : ∃ k ∈ m.mappedKeys, addr < k) :
    m.nearMapped addr = true ↔
      (∃ k ∈ m.mappedKeys, addr < k ∧ k < addSize addr kDefaultMapSize) ∨
      ∃ k ∈ m.mappedKeys, k < addr ∧ addr < k + kDefaultMapSize := by
  rw [nearMapped]
  cases hup : m.mappedAddrs.upper? addr with
  | none =>
      obtain ⟨k, hk, hlt⟩ := habove
      obtain ⟨handle, hmem⟩ := mem_mappedKeys.mp hk
      have := OrdMap.upper?_eq_none hup _ hmem
      dsimp only at this
      omega
  | some e =>
      obtain ⟨hmem, hlt⟩ := OrdMap.upper?_eq_some hup
      have hleast := OrdMap.upper?_le hup
      have hup' : e.1 ∈ m.mappedKeys := mem_mappedKeys.mpr ⟨e.2, hmem⟩
      have habove_iff : e.1 < addSize addr kDefaultMapSize ↔
          ∃ k ∈ m.mappedKeys, addr < k ∧ k < addSize addr kDefaultMapSize := by
        constructor
        · exact fun h => ⟨e.1, hup', hlt, h⟩
        · rintro ⟨k, hk, hlt, h⟩
          obtain ⟨handle, hkm⟩ := mem_mappedKeys.mp hk
          exact (hleast _ hkm hlt).trans_lt h
      simp only [Bool.or_eq_true, decide_eq_true_eq, habove_iff]
      refine or_congr Iff.rfl ?_
      cases hlow : m.mappedAddrs.floor? addr with
      | none =>
          refine iff_of_false (by simp) ?_
          rintro ⟨k, hk, hlt, _⟩
          obtain ⟨handle, hkm⟩ := mem_mappedKeys.mp hk
          have := OrdMap.floor?_eq_none hlow _ hkm
          dsimp only at this
          omega
      | some d =>
          obtain ⟨hdm, hle, hgreatest⟩ := OrdMap.floor?_eq_some hlow
          have hlow' : d.1 ∈ m.mappedKeys := mem_mappedKeys.mpr ⟨d.2, hdm⟩
          have hlt' : d.1 < addr := lt_of_le_of_ne hle fun heq => hkey (heq ▸ hlow')
          have hend := hd.end_le hlow' hup' (by omega)
          have hfit := hbound _ hup'
          simp only [decide_eq_true_eq]
          rw [addSize_eq (by omega)]
          constructor
          · exact fun h => ⟨d.1, hlow', hlt', h⟩
          · rintro ⟨k, hk, hlt, h⟩
            obtain ⟨handle, hkm⟩ := mem_mappedKeys.mp hk
            have := hgreatest _ hkm (le_of_lt hlt)
            dsimp only at this
            omega

/-- At an address that is not mapped, `Map` is right when its range check is. -/
theorem mapRight_iff_near (handle : Nat) (hkey : addr ∉ m.mappedKeys) :
    m.MapRight handle addr ↔
      (m.nearMapped addr = true ↔ ∃ k ∈ m.mappedKeys, Overlaps addr k) := by
  by_cases hnear : m.nearMapped addr = true
  · have hthrows := map_of_near handle hnear
    constructor
    · intro h
      refine iff_of_true hnear ?_
      by_contra hnone
      obtain ⟨m', hm', _⟩ := h.succeeds fun k hk ho => hnone ⟨k, hk, ho⟩
      rw [hthrows] at hm'
      cases hm'
    · intro h
      obtain ⟨k, hk, ho⟩ := h.mp hnear
      exact { throws := fun _ => hthrows, succeeds := fun hnone => absurd ho (hnone k hk) }
  · have hsucceeds := map_of_free handle hkey (Bool.eq_false_iff.mpr hnear)
    constructor
    · intro h
      refine iff_of_false hnear fun hoverlap => ?_
      have := h.throws hoverlap
      rw [hsucceeds] at this
      cases this
    · intro h
      exact
        { throws := fun hoverlap => absurd (h.mpr hoverlap) hnear
          succeeds := fun _ => ⟨_, hsucceeds, find?_withMapping handle hkey⟩ }

/-- An overlap is with a mapping above or with one below. -/
theorem exists_overlap_iff (hkey : addr ∉ m.mappedKeys) :
    (∃ k ∈ m.mappedKeys, Overlaps addr k) ↔
      (∃ k ∈ m.mappedKeys, addr < k ∧ k < addr + kDefaultMapSize) ∨
      ∃ k ∈ m.mappedKeys, k < addr ∧ addr < k + kDefaultMapSize := by
  constructor
  · rintro ⟨k, hk, hlow, hhigh⟩
    rcases lt_trichotomy addr k with h | h | h
    · exact .inl ⟨k, hk, h, hhigh⟩
    · exact absurd (h ▸ hk) hkey
    · exact .inr ⟨k, hk, h, hlow⟩
  · rintro (⟨k, hk, h, hlt⟩ | ⟨k, hk, h, hlt⟩)
    · exact ⟨k, hk, by omega, hlt⟩
    · exact ⟨k, hk, hlt, by omega⟩

/-- Among disjoint mappings, `Map` is right exactly for the addresses whose
neighbours it sees. -/
theorem mapRight_iff (hd : m.RangesDisjoint) (hbound : ∀ k ∈ m.mappedKeys, k < sizeBound)
    (handle : Nat) (haddr : addr < sizeBound) :
    m.MapRight handle addr ↔ m.NeighboursSeen addr := by
  by_cases hkey : addr ∈ m.mappedKeys
  · refine iff_of_true ?_ (.inl hkey)
    exact
      { throws := fun _ => map_of_mapped handle hkey
        succeeds := fun h => absurd (overlaps_self addr) (h addr hkey) }
  rw [mapRight_iff_near handle hkey, exists_overlap_iff hkey]
  by_cases habove : ∃ k ∈ m.mappedKeys, addr < k
  · rw [nearMapped_iff hd hbound hkey habove]
    by_cases hfit : addr + kDefaultMapSize < sizeBound
    · rw [addSize_eq hfit]
      exact iff_of_true Iff.rfl (.inr (.inl ⟨habove, .inl hfit⟩))
    · -- the end of the range is below 2MB now, so no mapping above looks near
      obtain ⟨k₀, hk₀, hlt₀⟩ := habove
      have hk₀_lt := hbound k₀ hk₀
      have hwrap : addSize addr kDefaultMapSize ≤ addr := by
        simp only [addSize, kDefaultMapSize, kMbByte, sizeBound] at hfit haddr ⊢
        omega
      have hnone : ¬ ∃ k ∈ m.mappedKeys, addr < k ∧ k < addSize addr kDefaultMapSize := by
        rintro ⟨k, _, h, h'⟩
        omega
      have hover : ∃ k ∈ m.mappedKeys, addr < k ∧ k < addr + kDefaultMapSize :=
        ⟨k₀, hk₀, hlt₀, by omega⟩
      simp only [hnone, hover, false_or, true_or, iff_true]
      constructor
      · exact fun h => .inr (.inl ⟨⟨k₀, hk₀, hlt₀⟩, .inr h⟩)
      · rintro (h | ⟨_, h | h⟩ | h)
        · exact absurd h hkey
        · exact absurd h hfit
        · exact h
        · have := h k₀ hk₀
          omega
  · have hlast : ∀ k ∈ m.mappedKeys, k ≤ addr := fun k hk =>
      not_lt.mp fun hlt => habove ⟨k, hk, hlt⟩
    have hnone : ¬ ∃ k ∈ m.mappedKeys, addr < k ∧ k < addr + kDefaultMapSize := by
      rintro ⟨k, hk, h, _⟩
      exact habove ⟨k, hk, h⟩
    simp only [nearMapped_of_last hlast, Bool.false_eq_true, hnone, false_or, false_iff]
    constructor
    · intro h
      refine .inr (.inr fun k hk => ?_)
      have hne : k ≠ addr := fun heq => hkey (heq ▸ hk)
      have hle := hlast k hk
      by_contra hlt
      exact h ⟨k, hk, by omega, by omega⟩
    · rintro (h | ⟨h, _⟩ | h)
      · exact absurd h hkey
      · exact absurd h habove
      · rintro ⟨k, hk, _, hlt⟩
        have := h k hk
        omega

/-! ## Runs -/

/-- The table of mappings as a run has it: disjoint ranges at pointers. -/
structure TableInv (m : VmmManager) : Prop where
  disjoint : m.RangesDisjoint
  bound : ∀ k ∈ m.mappedKeys, k < sizeBound

theorem TableInv.of_empty (h : m.mappedAddrs = OrdMap.empty) : m.TableInv := by
  have hkeys : m.mappedKeys = [] := by
    rw [mappedKeys, h]
    rfl
  exact
    { disjoint := fun j hj => by simp [hkeys] at hj
      bound := fun k hk => by simp [hkeys] at hk }

/-- Fewer mappings. -/
theorem TableInv.mono (hi : m.TableInv) (hsub : ∀ k ∈ m'.mappedKeys, k ∈ m.mappedKeys) :
    m'.TableInv where
  disjoint := fun j hj k hk => hi.disjoint j (hsub j hj) k (hsub k hk)
  bound := fun k hk => hi.bound k (hsub k hk)

theorem TableInv.unmap (hi : m.TableInv) (addr : Nat) :
    (m.after (.unmap addr)).TableInv := by
  rw [after]
  cases h : m.unmap addr with
  | none => exact hi
  | some r =>
      refine hi.mono fun k hk => ?_
      simp only [VmmManager.unmap, Option.bind_eq_bind, Option.bind_eq_some_iff] at h
      obtain ⟨handle, _, object, _, h⟩ := h
      split at h
      · cases h
      · obtain rfl := Option.some.inj h
        rw [mem_mappedKeys_iff_find?] at hk ⊢
        simp only [Option.map_some, Option.getD_some, OrdMap.find?_erase] at hk
        split at hk
        · cases hk
        · exact hk

theorem TableInv.map (hi : m.TableInv) (handle : Nat) (haddr : addr < sizeBound)
    (hseen : m.NeighboursSeen addr) : (m.after (.map handle addr)).TableInv := by
  have hright := (mapRight_iff hi.disjoint hi.bound handle haddr).mpr hseen
  rw [after]
  by_cases hover : ∃ k ∈ m.mappedKeys, Overlaps addr k
  · rw [hright.throws hover]
    exact hi
  · have hnone : ∀ k ∈ m.mappedKeys, ¬ Overlaps addr k := fun k hk ho => hover ⟨k, hk, ho⟩
    obtain ⟨m', hm', hfind⟩ := hright.succeeds hnone
    rw [hm']
    have hkeys : ∀ k ∈ m'.mappedKeys, k = addr ∨ k ∈ m.mappedKeys := by
      intro k hk
      rw [mem_mappedKeys_iff_find?, hfind] at hk
      split at hk
      · exact .inl ‹_›
      · exact .inr (mem_mappedKeys_iff_find?.mpr hk)
    constructor
    · intro j hj k hk ho
      rcases hkeys j hj with rfl | hj <;> rcases hkeys k hk with rfl | hk
      · rfl
      · exact absurd ho (hnone k hk)
      · exact absurd ho.symm (hnone j hj)
      · exact hi.disjoint j hj k hk ho
    · intro k hk
      rcases hkeys k hk with rfl | hk
      · exact haddr
      · exact hi.bound k hk

/-- A call with a pointer. -/
def TableStep (m : VmmManager) (c : TableCall) (m' : VmmManager) : Prop :=
  c.addr < sizeBound ∧ m' = m.after c

/-- The calls of `Map` that see their neighbours. -/
def CallSeen (m : VmmManager) : TableCall → Prop
  | .map _ addr => m.NeighboursSeen addr
  | .unmap _ => True

instance : ∀ (m : VmmManager) (c : TableCall), Decidable (m.CallSeen c)
  | m, .map _ addr => inferInstanceAs (Decidable (m.NeighboursSeen addr))
  | _, .unmap _ => inferInstanceAs (Decidable True)

theorem TableInv.step (hi : m.TableInv) {c : TableCall} (h : TableStep m c m')
    (hseen : m.CallSeen c) : m'.TableInv := by
  obtain ⟨haddr, rfl⟩ := h
  cases c with
  | map handle addr => exact hi.map handle haddr hseen
  | unmap addr => exact hi.unmap addr

/-- In a run whose calls of `Map` see their neighbours the mapped ranges stay
disjoint, and the next `Map` throws for an overlap and succeeds without one
exactly if it sees its neighbours too. -/
theorem map_overlap_iff {m₀ : VmmManager} (hm₀ : m₀.mappedAddrs = OrdMap.empty)
    {cs : List TableCall}
    (hrun : Run (fun m c m' => TableStep m c m' ∧ m.CallSeen c) m₀ cs m) :
    m.RangesDisjoint ∧
      ∀ handle addr, addr < sizeBound → (m.MapRight handle addr ↔ m.NeighboursSeen addr) := by
  have hi : m.TableInv :=
    hrun.state_inv (TableInv.of_empty hm₀) fun _ _ _ hi h => hi.step h.1 h.2
  exact ⟨hi.disjoint, fun handle addr => mapRight_iff hi.disjoint hi.bound handle⟩

/-- The manager with three handles and nothing mapped. -/
def unmapped : VmmManager where
  objects := ((Heap.empty.new {}).new {}).new {}
  handles := [0, 1, 2]
  maxMemSize := kMaxUsedMemSize

/-- Two mappings with room for a third one between them, which `Unmap` undoes. -/
theorem map_overlap_iff_four :
    ∃ m : VmmManager, m.mappedKeys = [0, 4 * kDefaultMapSize] ∧
      m.RangesDisjoint ∧
      ∀ handle addr, addr < sizeBound → (m.MapRight handle addr ↔ m.NeighboursSeen addr) := by
  refine ⟨_, ?_, map_overlap_iff (show unmapped.mappedAddrs = OrdMap.empty from rfl)
    ((((Run.nil.snoc (l := .map 1 (4 * kDefaultMapSize)) ⟨⟨by decide, rfl⟩, ?_⟩).snoc
      (l := .map 2 kDefaultMapSize) ⟨⟨by decide, rfl⟩, ?_⟩).snoc
      (l := .unmap kDefaultMapSize) ⟨⟨by decide, rfl⟩, trivial⟩).snoc
      (l := .map 1 0) ⟨⟨by decide, rfl⟩, ?_⟩)⟩
  all_goals decide

/-- The second mapping begins in the middle of the first one. Nothing is mapped
above it, so `Map` does not look below. -/
theorem map_in_the_middle :
    ¬ ∀ (m₀ m : VmmManager) (cs : List TableCall), m₀.mappedAddrs = OrdMap.empty →
      Run TableStep m₀ cs m →
        m.RangesDisjoint ∧
          ∀ handle addr, addr < sizeBound → m.MapRight handle addr := by
  intro h
  have hrun : Run TableStep unmapped [.map 0 0, .map 1 kMbByte]
      ((unmapped.after (.map 0 0)).after (.map 1 kMbByte)) :=
    (Run.nil.snoc ⟨by decide, rfl⟩).snoc ⟨by decide, rfl⟩
  have hdisjoint := (h _ _ _ rfl hrun).1
  revert hdisjoint
  decide

end VmmManager

end Ccbase.Memory
