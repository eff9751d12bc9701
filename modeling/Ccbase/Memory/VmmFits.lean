import Ccbase.Memory.VmmRuns

/-!
# Adapters that fit into memory

A region of 2^64 bytes would have a node of `vmm_map_` for each of its 2^43 segments. A node
of a `std::map` takes more than 32 bytes and a process has 2^47 bytes of addresses, so
`vmm_map_` stays below 2^42 segments: a call that reserves more ends in `bad_alloc`. Then
`base_addr_` does not go around, and no segment is reserved a second time.
-/

namespace Ccbase.Memory

open Ccbase.Lib

namespace VmmAdapter

variable {host : Nat ↪ Nat} {maxSize : Nat} {a a' : VmmAdapter} {k : Nat}

/-- The nodes of `vmm_map_` fit into the addresses of a process. -/
def Fits (a : VmmAdapter) : Prop := a.vmmMap.entries.length < 2 ^ 42

instance (a : VmmAdapter) : Decidable (Fits a) := inferInstanceAs (Decidable (_ < _))

/-! ## Reserved segments stay reserved -/

/-- The keys of `vmm_map_`. -/
def segments (a : VmmAdapter) : List Nat := a.vmmMap.entries.map Prod.fst

theorem segments_modify (m : VmmManager) (k : Nat) (f : Option Nat → Option Nat)
    (cached : List Nat) :
    segments { a with
      manager := m
      vmmMap := a.vmmMap.modify k f
      cachedHandleSets := cached } = a.segments :=
  OrdMap.keys_modify _ _ _

theorem moveBackOne_segments {e : Nat × Nat} (h : a.moveBackOne host e = some a') :
    a'.segments = a.segments := by
  unfold moveBackOne at h
  obtain ⟨⟨ret, m⟩, -, h⟩ := Option.bind_eq_some_iff.mp h
  dsimp only at h
  split at h
  · cases h
    rfl
  · split at h
    · cases h
      rfl
    · cases h
      exact segments_modify ..

theorem moveBackMappedHandle_segments {mapped : OrdMap Nat Nat}
    (h : a.moveBackMappedHandle host mapped = some a') : a'.segments = a.segments := by
  unfold moveBackMappedHandle at h
  generalize mapped.entries = es at h
  induction es generalizing a with
  | nil =>
      cases h
      rfl
  | cons e es ih =>
      rw [List.foldlM_cons] at h
      obtain ⟨a₁, hone, h⟩ := Option.bind_eq_some_iff.mp h
      rw [ih h, moveBackOne_segments hone]

theorem takeHandle_segments {r : Option Nat} (h : a.takeHandle host maxSize = (r, a')) :
    a'.segments = a.segments := by
  rcases takeHandle_cases h with ⟨_, _, -, -, rfl⟩ | ⟨-, -, rfl, -⟩ | ⟨-, -, -, -, rfl⟩
  · rfl
  · rfl
  · rfl

theorem mmapLoop_segments (host : Nat ↪ Nat) (maxSize start n : Nat) :
    ∀ {i : Nat} {iter : List (Nat × Option Nat)} {mapped : OrdMap Nat Nat} {a a' : VmmAdapter}
      {ok : Bool}, mmapLoop host maxSize start n i iter mapped a = some (ok, a') →
      a'.segments = a.segments := by
  induction n with
  | zero =>
      intro i iter mapped a a' ok h
      cases h
      rfl
  | succ n ih =>
      intro i iter mapped a a' ok h
      cases iter with
      | nil =>
          cases h
          rfl
      | cons e iter =>
          rw [mmapLoop] at h
          dsimp only at h
          split at h
          · cases h
            rfl
          split at h
          · exact ih h
          cases htake : a.takeHandle host maxSize with
          | mk r a₁ =>
              rw [htake] at h
              rw [← takeHandle_segments htake]
              cases r with
              | none =>
                  obtain ⟨a₂, hback, h⟩ := Option.bind_eq_some_iff.mp h
                  cases h
                  exact moveBackMappedHandle_segments hback
              | some handle =>
                  obtain ⟨⟨ret, m⟩, -, h⟩ := Option.bind_eq_some_iff.mp h
                  dsimp only at h
                  split at h
                  · -- the driver refuses: what this call has mapped goes back
                    obtain ⟨a₂, hback, h⟩ := Option.bind_eq_some_iff.mp h
                    cases h
                    have hsame := moveBackMappedHandle_segments hback
                    exact hsame
                  · exact (ih h).trans (segments_modify (a := a₁) ..)

theorem eagerFreeLoop_segments (host : Nat ↪ Nat) (freeEnd : Nat)
    {iter : List (Nat × Option Nat)} :
    ∀ {start ret : Nat} {a a' : VmmAdapter} {r : Option Nat},
      eagerFreeLoop host freeEnd iter start ret a = some (r, a') → a'.segments = a.segments := by
  induction iter with
  | nil =>
      intro start ret a a' r h
      rw [eagerFreeLoop] at h
      split at h
      · cases h
        rfl
      · cases h
        rfl
  | cons e iter ih =>
      intro start ret a a' r h
      obtain ⟨key, value⟩ := e
      simp only [eagerFreeLoop] at h
      split at h
      · cases h
        rfl
      split at h
      · cases h
        rfl
      cases value with
      | none => exact ih h
      | some handle =>
          obtain ⟨⟨done, m⟩, -, h⟩ := Option.bind_eq_some_iff.mp h
          dsimp only at h
          split at h
          · cases h
            rfl
          · exact (ih h).trans (segments_modify (a := a) ..)

/-- No call makes `vmm_map_` shorter. -/
theorem Step.length_le {c : VmmCall} (h : Step host maxSize a c a') :
    a.vmmMap.entries.length ≤ a'.vmmMap.entries.length := by
  have hsame : a'.segments = a.segments →
      a.vmmMap.entries.length ≤ a'.vmmMap.entries.length := by
    intro heq
    have hlen := congrArg List.length heq
    rw [segments, segments, List.length_map, List.length_map] at hlen
    exact hlen.ge
  cases c with
  | alloc size =>
      obtain ⟨⟨r, a₁⟩, hres, rfl⟩ := Option.map_eq_some_iff.mp h
      rw [allocDeviceMem_eq] at hres
      obtain ⟨-, rfl⟩ := Prod.mk.inj (Option.some.inj hres)
      rw [← List.length_map (f := Prod.fst)]
      refine OrdMap.length_le_of_keys a.vmmMap.keys_nodup fun k hk => ?_
      rw [reserved_vmmMap, find?_reserveSegments]
      split
      · rfl
      · exact OrdMap.mem_keys_iff.mp hk
  | mmap size addr =>
      obtain ⟨⟨r, a₁⟩, hres, rfl⟩ := Option.map_eq_some_iff.mp h
      by_cases hstart : a.findVmmSegment addr = 0
      · simp only [mmapDeviceMem, hstart, if_true] at hres
        cases hres
        exact le_rfl
      · rw [mmapDeviceMem_eq hstart (getHandleSize_roundUp _)] at hres
        obtain ⟨⟨ok, a₂⟩, hloop, hr⟩ := Option.bind_eq_some_iff.mp hres
        cases hr
        exact hsame (mmapLoop_segments _ _ _ _ hloop)
  | eagerFree addr size =>
      obtain ⟨⟨r, a₁⟩, hres, rfl⟩ := Option.map_eq_some_iff.mp h
      unfold eagerFreeDeviceMem at hres
      split at hres
      · cases hres
        exact le_rfl
      · obtain ⟨⟨ok, a₂⟩, hloop, hr⟩ := Option.bind_eq_some_iff.mp hres
        cases hr
        exact hsame (eagerFreeLoop_segments _ _ hloop)

theorem Step.fits {c : VmmCall} (h : Step host maxSize a c a') (hfits : a'.Fits) : a.Fits :=
  Nat.lt_of_le_of_lt h.length_le hfits

/-! ## The address space does not run out -/

/-- As many segments from `0` on as are reserved are in the map. -/
theorem length_le_of_reserved {m : OrdMap Nat (Option Nat)} {n : Nat}
    (h : ∀ j < n, (m.find? (j * kVmmAlignSize)).isSome) : n ≤ m.entries.length := by
  have hinj : Function.Injective fun j => j * kVmmAlignSize := fun _ _ h =>
    Nat.eq_of_mul_eq_mul_right (by decide) h
  have hle := OrdMap.length_le_of_keys (m := m) (List.nodup_range.map hinj) fun k hk => by
    obtain ⟨j, hj, rfl⟩ := List.mem_map.mp hk
    exact h j (List.mem_range.mp hj)
  rwa [List.length_map, List.length_range] at hle

/-- All reserved segments lie below `base_addr_`, in the lower half of the address space. -/
theorem Sane.below (hi : Sane host a) (hfits : a.Fits) :
    a.manager.baseAddr < 2 ^ 63 ∧
      ∀ k, (a.vmmMap.find? k).isSome → k < a.manager.baseAddr := by
  constructor
  · -- everything below `base_addr_` is reserved
    have hbase := hi.base.1
    have hle := length_le_of_reserved (m := a.vmmMap)
      (n := a.manager.baseAddr / kVmmAlignSize) fun j hj =>
        hi.filled.below _ (Nat.mul_mod_left _ _) (by
          simp only [kVmmAlignSize] at *
          omega)
    unfold Fits at hfits
    simp only [kVmmAlignSize] at *
    omega
  · -- and the whole address space is not
    refine hi.filled.above.resolve_left fun hall => ?_
    have hle := length_le_of_reserved (m := a.vmmMap) (n := a.vmmMap.entries.length + 1)
      fun j hj => hall _ (Nat.mul_mod_left _ _) (by
        unfold Fits at hfits
        simp only [kVmmAlignSize, sizeBound]
        omega)
    exact absurd hle (Nat.not_succ_le_self _)

/-- A region that fits does not go around the end of the address space. -/
theorem Sane.no_wrap (hi : Sane host a) {size : Nat} (hsize : size % kVmmAlignSize = 0)
    (hlt : size < sizeBound)
    (hfits : (a.reserved size (size / kVmmAlignSize)).Fits) :
    a.manager.baseAddr + size < sizeBound := by
  refine not_le.mp fun hge => ?_
  -- the last segment of the address space would be reserved
  have hbase := hi.base
  have htop := @reserved_find? a.manager.baseAddr (size / kVmmAlignSize)
    ((sizeBound - kVmmAlignSize - a.manager.baseAddr) / kVmmAlignSize)
    (sizeBound - kVmmAlignSize) a.vmmMap 0
    (by simp only [kVmmAlignSize, sizeBound] at *; omega)
    (by
      rw [segment_eq, Nat.zero_add]
      simp only [kVmmAlignSize, sizeBound] at *
      omega)
  obtain ⟨hhalf, hbelow⟩ := (hi.reserved hsize hlt).below hfits
  have hk := hbelow (sizeBound - kVmmAlignSize) (by
    rw [reserved_vmmMap, htop]
    rfl)
  exact absurd (hk.trans hhalf) (by decide)

/-- A call after which `vmm_map_` still fits reserves no segment a second time. -/
theorem Sane.reservesFree (hi : Sane host a) {c : VmmCall} (h : Step host maxSize a c a')
    (hfits : a'.Fits) : ReservesFree a c := by
  have hbelow := (hi.below (h.fits hfits)).2
  cases c with
  | mmap size addr => trivial
  | eagerFree addr size => trivial
  | alloc size =>
      obtain ⟨⟨r, a₁⟩, hres, rfl⟩ := Option.map_eq_some_iff.mp h
      rw [allocDeviceMem_eq] at hres
      obtain ⟨-, rfl⟩ := Prod.mk.inj (Option.some.inj hres)
      have hend := hi.no_wrap (roundUp_mod size) (roundUp_lt size) hfits
      -- the new segments start at `base_addr_`, and the old ones are below it
      intro j hj
      have hseg : (a.vmmMap.find?
          (addSize a.manager.baseAddr (mulSize j kVmmAlignSize))).isSome = false := by
        refine Bool.eq_false_iff.mpr fun hsome => ?_
        have hlt := hbelow _ hsome
        rw [segment_eq] at hlt
        simp only [kVmmAlignSize] at *
        rw [Nat.mod_eq_of_lt (by omega)] at hlt
        omega
      rw [Option.isSome_eq_false_iff, Option.isNone_iff_eq_none] at hseg
      rw [hseg]
      rfl

/-! ## Runs -/

/-- After every run that ends with a map that fits, every handle is accounted for, and
whatever is called next returns. -/
theorem handles_accounted (host : Nat ↪ Nat) (maxSize : Nat) {cs : List VmmCall}
    (h : Run (Step host maxSize) {} cs a) (hfits : a.Fits) :
    Accounted maxSize a ∧ ∀ c, ∃ a', Step host maxSize a c a' := by
  have hall := h.with_final (Q := Fits) (fun _ _ _ => Step.fits) hfits
  have hi : Inv host maxSize [] a ∧ Sane host a :=
    hall.state_inv (I := fun a => Inv host maxSize [] a ∧ Sane host a)
      ⟨inv_init host maxSize, sane_init host⟩ fun s c s' hi hs =>
        ⟨hi.1.step (hi.2.reservesFree hs.1 hs.2) hs.1, hi.2.step (l := (c, maxSize)) hs.1⟩
  exact ⟨hi.1.accounted, hi.1.returns⟩

/-- Three segments are reserved, the second one is mapped and unmapped again. -/
theorem handles_accounted_three :
    ∃ a, Run (Step (.refl Nat) kMaxUsedMemSize) {}
      [.alloc (3 * kVmmAlignSize), .mmap 1 kVmmAlignSize,
        .eagerFree kVmmAlignSize kVmmAlignSize] a ∧
      a.cachedHandleSets = [0] ∧ a.Fits ∧
      (Accounted kMaxUsedMemSize a ∧
        ∀ c, ∃ a', Step (.refl Nat) kMaxUsedMemSize a c a') := by
  have hexec : ((Run.exec (exec (.refl Nat) kMaxUsedMemSize) ReservesFree {}
      [.alloc (3 * kVmmAlignSize), .mmap 1 kVmmAlignSize,
        .eagerFree kVmmAlignSize kVmmAlignSize]).map
          fun a => (a.cachedHandleSets, decide a.Fits)) = some ([0], true) := by
    decide +kernel
  obtain ⟨a, ha, hres⟩ := Option.map_eq_some_iff.mp hexec
  obtain ⟨hcached, hfits⟩ := Prod.mk.inj hres
  have hrun := (Run.of_exec ha).imp fun _ _ _ h => h.1
  have hfits := of_decide_eq_true hfits
  exact ⟨a, hrun, hcached, hfits, handles_accounted (.refl Nat) kMaxUsedMemSize hrun hfits⟩

end VmmAdapter

end Ccbase.Memory
