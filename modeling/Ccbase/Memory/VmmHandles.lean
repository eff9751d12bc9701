import Ccbase.Memory.VmmInv

/-!
# No handle is lost

Runs of the adapter: `AllocDeviceMem`, `MmapDeviceMem` with one limit, and
`EagerFreeDeviceMem` with any arguments. No call throws, and in every state the
handles that have been made are those in `vmm_map_` and those in the cache, each
once.

Here this holds as long as no segment is reserved while it is mapped (`ReservesFree`).
`MallocVirtualAddress` lets `base_addr_` wrap around without a check; `VmmFits` shows
that it never comes so far.
-/

namespace Ccbase.Memory

open Ccbase.Lib

inductive VmmCall where
  | alloc (size : Nat)
  | mmap (size addr : Nat)
  | eagerFree (addr size : Nat)

namespace VmmAdapter

variable {host : Nat ↪ Nat} {maxSize : Nat} {a a' : VmmAdapter}

def exec (host : Nat ↪ Nat) (maxSize : Nat) (a : VmmAdapter) : VmmCall → Option VmmAdapter
  | .alloc size => (a.allocDeviceMem size).map Prod.snd
  | .mmap size addr => (a.mmapDeviceMem host size addr maxSize).map Prod.snd
  | .eagerFree addr size => (a.eagerFreeDeviceMem host addr size).map Prod.snd

def Step (host : Nat ↪ Nat) (maxSize : Nat) (a : VmmAdapter) (c : VmmCall) (a' : VmmAdapter) :
    Prop := a.exec host maxSize c = some a'

/-- No segment that is about to be reserved is mapped. -/
def ReservesFree (a : VmmAdapter) : VmmCall → Prop
  | .alloc size => ∀ j < getRoundUpAlignSize size / kVmmAlignSize,
      (a.vmmMap.find? (addSize a.manager.baseAddr (mulSize j kVmmAlignSize))).join = none
  | _ => True

instance : ∀ a c, Decidable (ReservesFree a c)
  | _, .alloc _ => inferInstanceAs (Decidable (∀ j < _, _))
  | _, .mmap _ _ => inferInstanceAs (Decidable True)
  | _, .eagerFree _ _ => inferInstanceAs (Decidable True)

/-- What the bookkeeping of the handles has to say. -/
structure Accounted (maxSize : Nat) (a : VmmAdapter) : Prop where
  size : a.physicalHandleSize = a.mappedHandles.length + a.cachedHandleSets.length
  nodup : (a.mappedHandles ++ a.cachedHandleSets).Nodup
  mapped : ∀ k h, a.vmmMap.find? k = some (some h) ↔ a.manager.mappedAddrs.find? k = some h
  bound : a.physicalHandleSize * kVmmAlignSize < maxSize + kVmmAlignSize

theorem Inv.accounted (hi : Inv host maxSize [] a) : Accounted maxSize a where
  size := by
    rw [hi.size, ← hi.places.length_eq]
    simp
  nodup := hi.nodup
  mapped := hi.mapped
  bound := by
    rw [hi.size]
    exact hi.bound

/-! ## The operations -/

theorem getHandleSize_roundUp (n : Nat) :
    getHandleSize (getRoundUpAlignSize n) = some (getRoundUpAlignSize n / kVmmAlignSize) := by
  simp [getHandleSize, getRoundUpAlignSize]

/-- The address of a segment behind an aligned address. -/
theorem segment_aligned {k n : Nat} (hk : k % kVmmAlignSize = 0) :
    addSize k (mulSize n kVmmAlignSize) % kVmmAlignSize = 0 ∧
      addSize k (mulSize n kVmmAlignSize) < sizeBound := by
  refine ⟨?_, addSize_lt _ _⟩
  simp only [addSize, mulSize, kVmmAlignSize, sizeBound] at *
  omega

/-- The adapter after a region of `n` segments and `size` bytes. -/
def reserved (size n : Nat) (a : VmmAdapter) : VmmAdapter :=
  { a with
    manager := { a.manager with baseAddr := addSize a.manager.baseAddr size }
    vmmMap := reserveSegments a.manager.baseAddr n 0 a.vmmMap }

@[simp] theorem reserved_manager (size n : Nat) (a : VmmAdapter) :
    (a.reserved size n).manager =
      { a.manager with baseAddr := addSize a.manager.baseAddr size } := rfl

@[simp] theorem reserved_vmmMap (size n : Nat) (a : VmmAdapter) :
    (a.reserved size n).vmmMap = reserveSegments a.manager.baseAddr n 0 a.vmmMap := rfl

@[simp] theorem reserved_cached (size n : Nat) (a : VmmAdapter) :
    (a.reserved size n).cachedHandleSets = a.cachedHandleSets := rfl

@[simp] theorem reserved_physical (size n : Nat) (a : VmmAdapter) :
    (a.reserved size n).physicalHandleSize = a.physicalHandleSize := rfl

theorem allocDeviceMem_eq (size : Nat) (a : VmmAdapter) :
    a.allocDeviceMem size = some ((getRoundUpAlignSize size, a.manager.baseAddr),
      a.reserved (getRoundUpAlignSize size) (getRoundUpAlignSize size / kVmmAlignSize)) := by
  simp only [allocDeviceMem, VmmManager.mallocVirtualAddress, getHandleSize_roundUp]
  rfl

theorem Inv.reserved (hi : Inv host maxSize [] a) {size n : Nat}
    (hsize : size % kVmmAlignSize = 0)
    (hfree : ∀ j < n,
      (a.vmmMap.find? (addSize a.manager.baseAddr (mulSize j kVmmAlignSize))).join = none) :
    Inv host maxSize [] (a.reserved size n) := by
  have hfind := find?_reserveSegments a.manager.baseAddr n 0 a.vmmMap
  have hnot : ∀ j < n, ∀ h,
      a.vmmMap.find? (addSize a.manager.baseAddr (mulSize j kVmmAlignSize)) ≠ some (some h) := by
    intro j hj h heq
    have hnone := hfree j hj
    rw [heq] at hnone
    cases hnone
  exact {
    aligned := by
      intro k v hv
      rw [reserved_vmmMap, hfind] at hv
      split at hv
      · rename_i hk
        obtain ⟨j, _, rfl⟩ := hk
        exact segment_aligned hi.base.1
      · exact hi.aligned k v hv
    base := by
      refine ⟨?_, addSize_lt _ _⟩
      have hbase := hi.base.1
      show addSize a.manager.baseAddr size % kVmmAlignSize = 0
      simp only [addSize, kVmmAlignSize, sizeBound] at *
      omega
    mapped := by
      intro k h
      rw [reserved_vmmMap, reserved_manager, hfind]
      split
      · rename_i hk
        obtain ⟨j, hj, rfl⟩ := hk
        rw [Nat.zero_add]
        have hnone := hnot j hj h
        rw [ne_eq, hi.mapped] at hnone
        exact ⟨fun heq => (by cases heq), fun heq => absurd heq hnone⟩
      · exact hi.mapped k h
    places := by
      refine List.Perm.trans ?_ hi.places
      refine List.Perm.append_left [] (List.Perm.append_right _ ?_)
      refine mappedHandles_reserveSegments _ _ 0 _ fun j hj h => ?_
      rw [Nat.zero_add]
      exact hnot j hj h
    sorted := hi.sorted
    cached := hi.cached
    made := hi.made
    addr := hi.addr
    size := hi.size
    limit := hi.limit
    real := hi.real
    bound := hi.bound }

theorem roundUp_mod (n : Nat) : getRoundUpAlignSize n % kVmmAlignSize = 0 :=
  Nat.mul_mod_left _ _

theorem roundUp_lt (n : Nat) : getRoundUpAlignSize n < sizeBound :=
  Nat.lt_of_le_of_lt (Nat.div_mul_le_self _ _) (Nat.mod_lt _ (by decide))

theorem Inv.alloc (hi : Inv host maxSize [] a) {size : Nat}
    (hfree : ReservesFree a (.alloc size)) {r : Nat × Nat}
    (h : a.allocDeviceMem size = some (r, a')) : Inv host maxSize [] a' := by
  rw [allocDeviceMem_eq] at h
  obtain ⟨-, rfl⟩ := Prod.mk.inj (Option.some.inj h)
  exact hi.reserved (roundUp_mod size) hfree

/-- The start of the loop of `MmapDeviceMem`. -/
theorem mapping_start (k : Nat) (a : VmmAdapter) :
    Mapping a (a.vmmMap.from_ k) OrdMap.empty a where
  iterSorted := a.vmmMap.sorted_from k
  ahead := fun _ he => OrdMap.find?_eq_some_iff.mpr (OrdMap.mem_from_.mp he).1
  behind := fun _ he => by cases he
  done := fun _ he => by cases he
  before := fun _ he => by cases he
  others := fun _ _ => rfl

theorem mmapDeviceMem_eq {size addr n : Nat} (hstart : a.findVmmSegment addr ≠ 0)
    (hn : getHandleSize (getRoundUpAlignSize (addSize size (addr - a.findVmmSegment addr))) =
      some n) :
    a.mmapDeviceMem host size addr maxSize =
      (mmapLoop host maxSize (a.findVmmSegment addr) n 0
        (a.vmmMap.from_ (a.findVmmSegment addr)) OrdMap.empty a).bind
        fun r => some (if r.1 then size else 0, r.2) := by
  unfold mmapDeviceMem
  simp only [hstart, if_false, hn]
  rfl

theorem Inv.mmap (hi : Inv host maxSize [] a) (size addr : Nat) :
    ∃ n a', a.mmapDeviceMem host size addr maxSize = some (n, a') ∧ Inv host maxSize [] a' ∧
      a'.manager.baseAddr = a.manager.baseAddr ∧ Grown a.vmmMap a'.vmmMap ∧
      (n ≠ 0 → n = size ∧ a.findVmmSegment addr ≠ 0 ∧
        ∀ j < getRoundUpAlignSize (addSize size (addr - a.findVmmSegment addr)) / kVmmAlignSize,
          ∃ h, a'.vmmMap.find? (addSize (a.findVmmSegment addr) (mulSize j kVmmAlignSize)) =
            some (some h)) := by
  by_cases hstart : a.findVmmSegment addr = 0
  · refine ⟨0, a, ?_, hi, rfl, .refl _, fun h => absurd rfl h⟩
    simp only [mmapDeviceMem, hstart, if_true]
  · have hn := getHandleSize_roundUp (addSize size (addr - a.findVmmSegment addr))
    rw [mmapDeviceMem_eq hstart hn]
    generalize getRoundUpAlignSize (addSize size (addr - a.findVmmSegment addr)) /
      kVmmAlignSize = n
    obtain ⟨ok, a', hloop, hi', hbase, hg, hok⟩ :=
      mmapLoop_spec host maxSize (a.findVmmSegment addr) n (i := 0) hi
        (mapping_start (a.findVmmSegment addr) a)
    refine ⟨if ok then size else 0, a', ?_, hi', hbase, hg, fun hne => ?_⟩
    · rw [hloop]
      rfl
    · cases ok with
      | false => exact absurd rfl hne
      | true =>
          refine ⟨rfl, hstart, fun j hj => ?_⟩
          obtain ⟨h, hh⟩ := (hok rfl).2 j hj
          rw [Nat.zero_add] at hh
          exact ⟨h, hh⟩

theorem eagerFree_spec {P : VmmAdapter → Prop} (hP : Unbinds host P) (hi : P a)
    (addr size : Nat) :
    ∃ n a', a.eagerFreeDeviceMem host addr size = some (n, a') ∧ P a' ∧
      ∀ k, a'.vmmMap.find? k = a.vmmMap.find? k ∨
        (addr ≤ k ∧ addSize k kVmmAlignSize ≤ addSize addr size ∧
          a'.vmmMap.find? k = some none) := by
  unfold eagerFreeDeviceMem
  cases hiter : a.vmmMap.from_ addr with
  | nil => exact ⟨0, a, rfl, hi, fun k => .inl rfl⟩
  | cons e iter =>
      have hahead : ∀ d ∈ e :: iter, d ∈ a.vmmMap.entries ∧ addr ≤ d.1 := by
        intro d hd
        rw [← hiter] at hd
        exact OrdMap.mem_from_.mp hd
      obtain ⟨r, a', hloop, hi', hframe⟩ :=
        eagerFreeLoop_spec hP (addSize addr size) (hiter ▸ a.vmmMap.sorted_from addr) e.1 0 hi
          fun d hd => OrdMap.find?_eq_some_iff.mpr (hahead d hd).1
      refine ⟨r.getD 0, a', ?_, hi', fun k => ?_⟩
      · show (eagerFreeLoop _ _ _ _ _ _).bind _ = _
        rw [hloop]
        rfl
      · refine (hframe k).imp id fun ⟨hk, hle, hnone⟩ => ⟨?_, hle, hnone⟩
        obtain ⟨d, hd, rfl⟩ := List.mem_map.mp hk
        exact (hahead d hd).2

theorem Inv.eagerFree (hi : Inv host maxSize [] a) (addr size : Nat) :
    ∃ n a', a.eagerFreeDeviceMem host addr size = some (n, a') ∧ Inv host maxSize [] a' ∧
      a'.manager.baseAddr = a.manager.baseAddr ∧
      ∀ k, a'.vmmMap.find? k = a.vmmMap.find? k ∨
        (addr ≤ k ∧ addSize k kVmmAlignSize ≤ addSize addr size ∧
          a'.vmmMap.find? k = some none) := by
  obtain ⟨n, a', h, ⟨hi', hbase⟩, hframe⟩ :=
    eagerFree_spec (unbinds_inv host maxSize a.manager.baseAddr) ⟨hi, rfl⟩ addr size
  exact ⟨n, a', h, hi', hbase, hframe⟩

/-! ## Runs -/

/-- No call throws. -/
theorem Inv.returns (hi : Inv host maxSize [] a) (c : VmmCall) :
    ∃ a', Step host maxSize a c a' := by
  cases c with
  | alloc size => exact ⟨_, congrArg (Option.map Prod.snd) (allocDeviceMem_eq size a)⟩
  | mmap size addr =>
      obtain ⟨n, a', h, _⟩ := hi.mmap size addr
      exact ⟨a', congrArg (Option.map Prod.snd) h⟩
  | eagerFree addr size =>
      obtain ⟨n, a', h, _⟩ := hi.eagerFree addr size
      exact ⟨a', congrArg (Option.map Prod.snd) h⟩

theorem Inv.step (hi : Inv host maxSize [] a) {c : VmmCall} (hfree : ReservesFree a c)
    (h : Step host maxSize a c a') : Inv host maxSize [] a' := by
  cases c with
  | alloc size =>
      obtain ⟨⟨r, a₁⟩, hres, rfl⟩ := Option.map_eq_some_iff.mp h
      exact hi.alloc hfree hres
  | mmap size addr =>
      obtain ⟨⟨r, a₁⟩, hres, rfl⟩ := Option.map_eq_some_iff.mp h
      obtain ⟨n, a₂, hres', hi₂, -⟩ := hi.mmap size addr
      rw [hres] at hres'
      cases hres'
      exact hi₂
  | eagerFree addr size =>
      obtain ⟨⟨r, a₁⟩, hres, rfl⟩ := Option.map_eq_some_iff.mp h
      obtain ⟨n, a₂, hres', hi₂, -⟩ := hi.eagerFree addr size
      rw [hres] at hres'
      cases hres'
      exact hi₂

theorem reserved_find? {addr n j k : Nat} (m : OrdMap Nat (Option Nat)) (i : Nat) (hj : j < n)
    (hk : k = addSize addr (mulSize (i + j) kVmmAlignSize)) :
    (reserveSegments addr n i m).find? k = some none :=
  (find?_reserveSegments addr n i m k).trans (if_pos ⟨j, hj, hk⟩)

theorem step_alloc (host : Nat ↪ Nat) (maxSize size : Nat) (a : VmmAdapter) :
    Step host maxSize a (.alloc size)
      (a.reserved (getRoundUpAlignSize size) (getRoundUpAlignSize size / kVmmAlignSize)) := by
  simp only [Step, exec, allocDeviceMem_eq, Option.map_some]

end VmmAdapter

end Ccbase.Memory
