import Ccbase.Memory.VmmHandles

/-!
# All runs of the adapter

Runs with any calls and any limits, also those that have used up the address space and
get addresses a second time. A segment that is reserved again loses its handle, but the
handles that are left in `vmm_map_` are still mapped where it says, each once. That is
all that the loops rely on when they unmap.
-/

namespace Ccbase.Memory

open Ccbase.Lib

namespace VmmAdapter

variable {host : Nat ↪ Nat} {maxSize : Nat} {a a' : VmmAdapter} {k h : Nat}

theorem segment_eq (start i : Nat) :
    addSize start (mulSize i kVmmAlignSize) = (start + i * kVmmAlignSize) % sizeBound :=
  Nat.add_mod_mod ..

/-- Regions are reserved one behind the other. Below `base` every segment is reserved,
above it none, until `base` has gone around once. -/
structure Filled (m : OrdMap Nat (Option Nat)) (base : Nat) : Prop where
  below : ∀ k, k % kVmmAlignSize = 0 → k < base → (m.find? k).isSome
  above : (∀ k, k % kVmmAlignSize = 0 → k < sizeBound → (m.find? k).isSome) ∨
    ∀ k, (m.find? k).isSome → k < base

theorem Filled.modify {m : OrdMap Nat (Option Nat)} {base : Nat} (hf : Filled m base) (k : Nat)
    (f : Option Nat → Option Nat) : Filled (m.modify k f) base := by
  have hsome : ∀ k', ((m.modify k f).find? k').isSome = (m.find? k').isSome := by
    intro k'
    rw [OrdMap.find?_modify]
    split
    · rename_i heq
      rw [Option.isSome_map, heq]
    · rfl
  exact ⟨fun k' => hsome k' ▸ hf.below k',
    hf.above.imp (fun h k' => hsome k' ▸ h k') fun h k' => hsome k' ▸ h k'⟩

/-- Below a reserved segment every segment is reserved. -/
theorem Filled.down {m : OrdMap Nat (Option Nat)} {base k' : Nat} (hf : Filled m base)
    (hk : k % kVmmAlignSize = 0) (hle : k ≤ k') (hk' : (m.find? k').isSome) (hb : k' < sizeBound) :
    (m.find? k).isSome := by
  rcases hf.above with hall | hbase
  · exact hall k hk (Nat.lt_of_le_of_lt hle hb)
  · exact hf.below k hk (Nat.lt_of_le_of_lt hle (hbase k' hk'))

theorem Filled.reserve {m : OrdMap Nat (Option Nat)} {base size : Nat} (hf : Filled m base)
    (hbase : base % kVmmAlignSize = 0 ∧ base < sizeBound) (hsize : size % kVmmAlignSize = 0)
    (hlt : size < sizeBound) :
    Filled (reserveSegments base (size / kVmmAlignSize) 0 m) (addSize base size) := by
  have hfind := find?_reserveSegments base (size / kVmmAlignSize) 0 m
  have hkept : ∀ k, (m.find? k).isSome →
      ((reserveSegments base (size / kVmmAlignSize) 0 m).find? k).isSome := by
    intro k hk
    rw [hfind]
    split
    · rfl
    · exact hk
  -- the segments from `base` on, up to the end of the region or of the address space
  have hnew : ∀ k, k % kVmmAlignSize = 0 → k < sizeBound → base ≤ k → k < base + size →
      ((reserveSegments base (size / kVmmAlignSize) 0 m).find? k).isSome := by
    intro k hk hkb hle hlt
    have hj : ∃ j < size / kVmmAlignSize,
        k = addSize base (mulSize (0 + j) kVmmAlignSize) := by
      refine ⟨(k - base) / kVmmAlignSize, ?_, ?_⟩
      · simp only [kVmmAlignSize] at *
        omega
      · rw [segment_eq, Nat.zero_add]
        simp only [kVmmAlignSize, sizeBound] at *
        omega
    rw [hfind, if_pos hj]
    rfl
  have hbelow : ∀ k, k % kVmmAlignSize = 0 → k < sizeBound → k < base + size →
      ((reserveSegments base (size / kVmmAlignSize) 0 m).find? k).isSome := by
    intro k hk hkb hlt
    by_cases hle : base ≤ k
    · exact hnew k hk hkb hle hlt
    · exact hkept k (hf.below k hk (not_le.mp hle))
  by_cases hend : base + size < sizeBound
  · rw [addSize_eq hend]
    refine ⟨fun k hk hlt => hbelow k hk (Nat.lt_trans hlt hend) hlt, ?_⟩
    refine hf.above.imp (fun hall k hk hkb => hkept k (hall k hk hkb)) fun hedge k hk => ?_
    rw [hfind] at hk
    split at hk
    · rename_i hj
      obtain ⟨j, hj, rfl⟩ := hj
      rw [segment_eq, Nat.zero_add]
      simp only [kVmmAlignSize, sizeBound] at *
      omega
    · exact Nat.lt_add_right _ (hedge k hk)
  · have hall : ∀ k, k % kVmmAlignSize = 0 → k < sizeBound →
        ((reserveSegments base (size / kVmmAlignSize) 0 m).find? k).isSome :=
      fun k hk hkb => hbelow k hk hkb (Nat.lt_of_lt_of_le hkb (not_lt.mp hend))
    exact ⟨fun k hk hlt => hall k hk (Nat.lt_trans hlt (addSize_lt _ _)), .inl hall⟩

structure Sane (host : Nat ↪ Nat) (a : VmmAdapter) : Prop where
  aligned : ∀ k v, a.vmmMap.find? k = some v → k % kVmmAlignSize = 0 ∧ k < sizeBound
  base : a.manager.baseAddr % kVmmAlignSize = 0 ∧ a.manager.baseAddr < sizeBound
  filled : Filled a.vmmMap a.manager.baseAddr
  mapped : ∀ k h, a.vmmMap.find? k = some (some h) →
    a.manager.mappedAddrs.find? k = some h ∧
      ∃ o, a.manager.objects.get h = some o ∧ o.addr = k
  cached : OrdSet.Sorted host a.cachedHandleSets
  spare : ∀ h ∈ a.cachedHandleSets, (∃ o, a.manager.objects.get h = some o) ∧
    ∀ k, a.vmmMap.find? k ≠ some (some h)
  made : ∀ h ∈ a.manager.handles, ∃ o, a.manager.objects.get h = some o
  size : a.physicalHandleSize = a.manager.handles.length
  limit : a.manager.maxMemSize = kMaxUsedMemSize
  real : a.manager.handles.length * kVmmAlignSize < kMaxUsedMemSize + kVmmAlignSize

/-- A handle that has been taken and is not mapped yet. -/
structure Loose (h : Nat) (a : VmmAdapter) : Prop where
  made : ∃ o, a.manager.objects.get h = some o
  unmapped : ∀ k, a.vmmMap.find? k ≠ some (some h)
  uncached : h ∉ a.cachedHandleSets

theorem sane_init (host : Nat ↪ Nat) : Sane host {} where
  aligned := fun _ _ hk => by cases hk
  base := by decide
  filled := ⟨fun _ _ hk => (by cases hk), .inr fun _ hk => (by cases hk)⟩
  mapped := fun _ _ hk => by cases hk
  cached := OrdSet.sorted_nil
  spare := fun _ hh => by cases hh
  made := fun _ hh => by cases hh
  size := rfl
  limit := rfl
  real := by decide

theorem Sane.mapped_inj (hi : Sane host a) {k' : Nat} (hk : a.vmmMap.find? k = some (some h))
    (hk' : a.vmmMap.find? k' = some (some h)) : k = k' := by
  obtain ⟨-, o, ho, hok⟩ := hi.mapped k h hk
  obtain ⟨-, o', ho', hok'⟩ := hi.mapped k' h hk'
  rw [ho] at ho'
  cases ho'
  exact hok.symm.trans hok'

/-! ## Taking a handle -/

/-- How many handles of 2MB a limit allows. -/
def handleLimit (maxSize : Nat) : Nat := (maxSize + (kVmmAlignSize - 1)) / kVmmAlignSize

/-- How many handles `MmapDeviceMem` can get. -/
def supply (maxSize : Nat) (a : VmmAdapter) : Nat :=
  a.cachedHandleSets.length +
    (min (handleLimit maxSize) (handleLimit kMaxUsedMemSize) - a.physicalHandleSize)

theorem handleLimit_le_iff (maxSize n : Nat) :
    handleLimit maxSize ≤ n ↔ maxSize ≤ n * kVmmAlignSize := by
  unfold handleLimit kVmmAlignSize
  omega

theorem supply_nil (hcached : a.cachedHandleSets = []) :
    supply maxSize a =
      min (handleLimit maxSize) (handleLimit kMaxUsedMemSize) - a.physicalHandleSize := by
  rw [supply, hcached, List.length_nil, Nat.zero_add]

/-- The outcomes of a search for a handle. -/
theorem takeHandle_cases {r : Option Nat} (h : a.takeHandle host maxSize = (r, a')) :
    (∃ handle cached, a.cachedHandleSets = handle :: cached ∧ r = some handle ∧
      a' = { a with cachedHandleSets := cached }) ∨
    (a.cachedHandleSets = [] ∧ r = none ∧ a' = a ∧
      (maxSize ≤ mulSize a.physicalHandleSize kVmmAlignSize ∨
        a.manager.maxMemSize ≤ mulSize a.manager.handles.length kVmmAlignSize)) ∨
    (a.cachedHandleSets = [] ∧ r = some a.manager.objects.next ∧
      mulSize a.physicalHandleSize kVmmAlignSize < maxSize ∧
      mulSize a.manager.handles.length kVmmAlignSize < a.manager.maxMemSize ∧
      a' = { a with
        manager := { a.manager with
          objects := a.manager.objects.new {}
          handles := OrdSet.emplace host a.manager.objects.next a.manager.handles }
        physicalHandleSize := addSize a.physicalHandleSize 1 }) := by
  unfold takeHandle at h
  split at h
  · rename_i handle cached hcached
    cases h
    exact .inl ⟨handle, cached, hcached, rfl, rfl⟩
  · rename_i hcached
    split at h
    · rename_i hmax
      cases h
      exact .inr (.inl ⟨hcached, rfl, rfl, .inl hmax⟩)
    · rename_i hmax
      unfold VmmManager.getHandle at h
      rw [show kDefaultMapSize = kVmmAlignSize from rfl] at h
      by_cases hreal : a.manager.maxMemSize ≤ mulSize a.manager.handles.length kVmmAlignSize
      · rw [if_pos hreal] at h
        cases h
        exact .inr (.inl ⟨hcached, rfl, rfl, .inr hreal⟩)
      · rw [if_neg hreal] at h
        cases h
        exact .inr (.inr ⟨hcached, rfl, not_le.mp hmax, not_le.mp hreal, rfl⟩)

theorem Sane.fits (hi : Sane host a) :
    mulSize a.physicalHandleSize kVmmAlignSize = a.physicalHandleSize * kVmmAlignSize := by
  rw [hi.size]
  exact mulSize_eq (Nat.lt_of_lt_of_le hi.real (by decide))

/-- A new handle. -/
theorem Sane.new (hi : Sane host a)
    (hreal : a.physicalHandleSize * kVmmAlignSize < kMaxUsedMemSize) :
    Sane host { a with
      manager := { a.manager with
        objects := a.manager.objects.new {}
        handles := OrdSet.emplace host a.manager.objects.next a.manager.handles }
      physicalHandleSize := a.physicalHandleSize + 1 } := by
  have hnotMem : a.manager.objects.next ∉ a.manager.handles := by
    intro hmem
    obtain ⟨o, ho⟩ := hi.made _ hmem
    exact Heap.ne_next ho rfl
  have hlen : (OrdSet.emplace host a.manager.objects.next a.manager.handles).length =
      a.manager.handles.length + 1 := by
    have hperm : (OrdSet.emplace host a.manager.objects.next a.manager.handles).Perm
        (a.manager.objects.next :: a.manager.handles) :=
      OrdSet.perm_emplace fun y hy heq => hnotMem (host.injective heq ▸ hy)
    rw [hperm.length_eq, List.length_cons]
  have hnew : ∀ h o, a.manager.objects.get h = some o →
      (a.manager.objects.new {}).get h = some o := fun h o ho =>
    (Heap.get_new _ _ _).trans ((if_neg (Heap.ne_next ho)).trans ho)
  exact {
    aligned := hi.aligned
    base := hi.base
    filled := hi.filled
    mapped := by
      intro k h hk
      obtain ⟨hm, o, ho, hok⟩ := hi.mapped k h hk
      exact ⟨hm, o, hnew h o ho, hok⟩
    cached := hi.cached
    spare := by
      intro h hh
      obtain ⟨⟨o, ho⟩, hnone⟩ := hi.spare h hh
      exact ⟨⟨o, hnew h o ho⟩, hnone⟩
    made := by
      intro h hh
      rcases OrdSet.mem_emplace hh with rfl | hh
      · exact ⟨_, Heap.get_new_self _ _⟩
      · obtain ⟨o, ho⟩ := hi.made h hh
        exact ⟨o, hnew h o ho⟩
    size := by
      show a.physicalHandleSize + 1 = _
      rw [hlen, hi.size]
    limit := hi.limit
    real := by
      show (OrdSet.emplace host a.manager.objects.next a.manager.handles).length *
        kVmmAlignSize < _
      rw [hlen, Nat.add_mul, Nat.one_mul, ← hi.size]
      exact Nat.add_lt_add_right hreal _ }

/-- A search for a handle fails if the supply is used up, else it takes one from it. -/
theorem Sane.takeHandle (hi : Sane host a) {r : Option Nat}
    (htake : a.takeHandle host maxSize = (r, a')) :
    a'.vmmMap = a.vmmMap ∧ Sane host a' ∧
    ((r = none ∧ a' = a ∧ supply maxSize a = 0) ∨
      ∃ h, r = some h ∧ Loose h a' ∧ supply maxSize a' + 1 = supply maxSize a) := by
  have hlimits : ∀ {l m p : Nat}, p < l → p < m → min l m - (p + 1) + 1 = min l m - p := by
    omega
  rcases takeHandle_cases htake with ⟨handle, cached, hcached, rfl, rfl⟩ |
      ⟨hcached, rfl, rfl, hlimit⟩ | ⟨hcached, rfl, hmax, hreal, rfl⟩
  · have hsorted := hi.cached
    rw [hcached] at hsorted
    obtain ⟨hfirst, hrest⟩ := OrdSet.sorted_cons.mp hsorted
    have hspare := hi.spare
    rw [hcached] at hspare
    refine ⟨rfl, { hi with cached := hrest, spare := fun h hh => hspare h (.tail _ hh) },
      .inr ⟨handle, rfl, ⟨(hspare handle (.head _)).1, (hspare handle (.head _)).2, ?_⟩, ?_⟩⟩
    · intro hmem
      exact lt_irrefl _ (hfirst handle hmem)
    · rw [supply, supply, hcached, List.length_cons]
      exact Nat.add_right_comm _ _ _
  · refine ⟨rfl, hi, .inl ⟨rfl, rfl, ?_⟩⟩
    rw [supply_nil hcached, Nat.sub_eq_zero_iff_le]
    rw [hi.limit, ← hi.size, hi.fits, ← handleLimit_le_iff, ← handleLimit_le_iff] at hlimit
    exact min_le_iff.mpr hlimit
  · rw [hi.limit, ← hi.size, hi.fits] at hreal
    rw [hi.fits] at hmax
    have hnext : addSize a.physicalHandleSize 1 = a.physicalHandleSize + 1 := by
      have h₁ : 0 < kVmmAlignSize := by decide
      have h₂ : a.physicalHandleSize ≤ a.physicalHandleSize * kVmmAlignSize :=
        Nat.le_mul_of_pos_right _ h₁
      have h₃ : kMaxUsedMemSize < sizeBound := by decide
      exact addSize_eq (Nat.lt_of_le_of_lt (Nat.succ_le_of_lt (Nat.lt_of_le_of_lt h₂ hreal)) h₃)
    rw [hnext]
    refine ⟨rfl, hi.new hreal, .inr ⟨_, rfl, ⟨⟨_, Heap.get_new_self _ _⟩, ?_, ?_⟩, ?_⟩⟩
    · intro k hk
      obtain ⟨-, o, ho, -⟩ := hi.mapped k _ hk
      exact Heap.ne_next ho rfl
    · intro hmem
      obtain ⟨⟨o, ho⟩, -⟩ := hi.spare _ hmem
      exact Heap.ne_next ho rfl
    · rw [← not_le, ← handleLimit_le_iff, not_le] at hmax hreal
      rw [supply_nil hcached, supply, hcached, List.length_nil, Nat.zero_add]
      exact hlimits hmax hreal

/-! ## Mapping and unmapping -/

/-- A handle is mapped into a segment, unless the driver throws. -/
theorem Sane.bind {ret : Bool} {m : VmmManager} (hi : Sane host a) (hh : Loose h a)
    (hk : a.vmmMap.find? k = some none) (hmap : a.manager.map h k = some (ret, m)) :
    ret = true ∧ Sane host
      { a with manager := m, vmmMap := a.vmmMap.modify k fun _ => some h } := by
  unfold VmmManager.map at hmap
  split at hmap
  · cases hmap
  rename_i hnone
  rw [Bool.not_eq_true, Option.isSome_eq_false_iff, Option.isNone_iff_eq_none] at hnone
  split at hmap
  · cases hmap
  cases hmap
  obtain ⟨o, ho⟩ := hh.made
  have hobj : ∀ h', (a.manager.objects.modify h (MemHandle.map k)).get h' =
      if h' = h then some (MemHandle.map k o) else a.manager.objects.get h' := by
    intro h'
    rw [Heap.get_modify, ho]
    rfl
  have hmade : ∀ h', (∃ o, a.manager.objects.get h' = some o) →
      ∃ o, (a.manager.objects.modify h (MemHandle.map k)).get h' = some o := by
    rintro h' ⟨o', ho'⟩
    rw [hobj]
    split
    · exact ⟨_, rfl⟩
    · exact ⟨o', ho'⟩
  refine ⟨rfl, ?_⟩
  exact {
    aligned := by
      intro k' v hv
      rw [OrdMap.find?_modify] at hv
      split at hv
      · rename_i heq
        exact hi.aligned k' _ (heq ▸ hk)
      · exact hi.aligned k' v hv
    base := hi.base
    filled := hi.filled.modify k fun _ => some h
    mapped := by
      intro k' h' hk'
      rw [OrdMap.find?_modify, hk] at hk'
      dsimp only
      rw [OrdMap.find?_emplace_of_none h hnone, hobj]
      split at hk'
      · rename_i heq
        cases hk'
        rw [if_pos heq, if_pos rfl]
        exact ⟨rfl, _, rfl, heq.symm⟩
      · rename_i hne
        have hneh : h' ≠ h := by
          rintro rfl
          exact hh.unmapped k' hk'
        rw [if_neg hne, if_neg hneh]
        exact hi.mapped k' h' hk'
    cached := hi.cached
    spare := by
      intro h' hh'
      obtain ⟨hmade', hnone'⟩ := hi.spare h' hh'
      refine ⟨hmade h' hmade', fun k' hk' => ?_⟩
      rw [OrdMap.find?_modify, hk] at hk'
      split at hk'
      · cases hk'
        exact hh.uncached hh'
      · exact hnone' k' hk'
    made := fun h' hh' => hmade h' (hi.made h' hh')
    size := hi.size
    limit := hi.limit
    real := hi.real }

/-- A mapped handle goes back to the cache. -/
theorem Sane.unbind (hi : Sane host a) (hk : a.vmmMap.find? k = some (some h)) :
    ∃ m, a.manager.unmap k = some (true, m) ∧ Sane host
        { a with
          manager := m
          vmmMap := a.vmmMap.modify k fun _ => none
          cachedHandleSets := OrdSet.emplace host h a.cachedHandleSets } := by
  obtain ⟨hm, o, ho, hok⟩ := hi.mapped k h hk
  have hunmap : a.manager.unmap k = some (true,
      { a.manager with
        objects := a.manager.objects.modify h MemHandle.unmap
        mappedAddrs := a.manager.mappedAddrs.erase k }) := by
    simp [VmmManager.unmap, hm, ho, hok]
  have hmade : ∀ h', (∃ o, a.manager.objects.get h' = some o) →
      ∃ o, (a.manager.objects.modify h MemHandle.unmap).get h' = some o := by
    rintro h' ⟨o', ho'⟩
    rw [Heap.get_modify, ho]
    split
    · exact ⟨_, rfl⟩
    · exact ⟨o', ho'⟩
  refine ⟨_, hunmap, ?_⟩
  exact {
    aligned := by
      intro k' v hv
      rw [OrdMap.find?_modify] at hv
      split at hv
      · rename_i heq
        exact hi.aligned k' _ (heq ▸ hk)
      · exact hi.aligned k' v hv
    base := hi.base
    filled := hi.filled.modify k fun _ => none
    mapped := by
      intro k' h' hk'
      rw [OrdMap.find?_modify, hk] at hk'
      split at hk'
      · cases hk'
      · rename_i hne
        have hneh : h' ≠ h := by
          rintro rfl
          exact hne (hi.mapped_inj hk' hk)
        dsimp only
        rw [OrdMap.find?_erase, if_neg hne, Heap.get_modify, if_neg hneh]
        exact hi.mapped k' h' hk'
    cached := OrdSet.sorted_emplace hi.cached
    spare := by
      intro h' hh'
      rcases OrdSet.mem_emplace hh' with rfl | hh'
      · refine ⟨hmade h' ⟨o, ho⟩, fun k' hk' => ?_⟩
        rw [OrdMap.find?_modify, hk] at hk'
        split at hk'
        · cases hk'
        · rename_i hne
          exact hne (hi.mapped_inj hk' hk)
      · obtain ⟨hmade', hnone'⟩ := hi.spare h' hh'
        refine ⟨hmade h' hmade', fun k' hk' => ?_⟩
        rw [OrdMap.find?_modify, hk] at hk'
        split at hk'
        · cases hk'
        · exact hnone' k' hk'
    made := fun h' hh' => hmade h' (hi.made h' hh')
    size := hi.size
    limit := hi.limit
    real := hi.real }

theorem unbinds_sane (host : Nat ↪ Nat) : Unbinds host (Sane host) :=
  fun _ _ _ hi hk => hi.unbind hk

/-! ## The loop of `MmapDeviceMem` -/

/-- The entries of the segments from `k` on, up to the first one that is not
reserved and `n` at most. -/
def segmentsFrom (m : OrdMap Nat (Option Nat)) : Nat → Nat → List (Option Nat)
  | 0, _ => []
  | n + 1, k =>
      match m.find? k with
      | none => []
      | some v => v :: segmentsFrom m n (k + kVmmAlignSize)

variable {a₀ : VmmAdapter} {iter : List (Nat × Option Nat)} {mapped : OrdMap Nat Nat}

theorem Mapping.finish (hm : Mapping a₀ iter mapped a) : Mapping a₀ [] mapped a :=
  { hm with
    iterSorted := .nil
    ahead := fun _ hd => by cases hd
    behind := fun _ _ _ hd => by cases hd }

/-- The loop has left everything as it was only if it has mapped nothing. -/
theorem Mapping.unchanged_iff (hm : Mapping a₀ iter mapped a) :
    a.vmmMap = a₀.vmmMap ↔ mapped.entries.length = 0 := by
  rw [List.length_eq_zero_iff]
  constructor
  · intro hsame
    refine List.eq_nil_iff_forall_not_mem.mpr fun e he => ?_
    have hdone := hm.done e he
    rw [hsame, hm.before e he] at hdone
    cases hdone
  · intro hnil
    refine OrdMap.ext_find? fun k => hm.others k (OrdMap.find?_eq_none_iff.mpr fun v hv => ?_)
    rw [hnil] at hv
    cases hv

/-- The next entry of `vmm_map_` behind a segment is one segment further or more. -/
theorem Sane.from_eq (hi : Sane host a) {v : Option Nat} (hk : a.vmmMap.find? k = some v) :
    a.vmmMap.from_ k = (k, v) :: a.vmmMap.from_ (k + kVmmAlignSize) := by
  refine OrdMap.from_eq_cons hk (Nat.lt_add_of_pos_right (by decide)) fun l w hl hlt => ?_
  exact (segment_end_le (hi.aligned k v hk).1 (hi.aligned l w hl).1 hlt (hi.aligned l w hl).2).2

theorem mmapLoop_missing {start n i : Nat} {ok : Bool}
    (hnone : a₀.vmmMap.find? (start + i * kVmmAlignSize) = none)
    (hloop : mmapLoop host maxSize start (n + 1) i
      (a₀.vmmMap.from_ (start + i * kVmmAlignSize)) mapped a = some (ok, a')) :
    ok = false ∧ a' = a := by
  cases hiter : a₀.vmmMap.from_ (start + i * kVmmAlignSize) with
  | nil =>
      rw [hiter] at hloop
      cases hloop
      exact ⟨rfl, rfl⟩
  | cons e iter =>
      obtain ⟨key, value⟩ := e
      have hmem : (key, value) ∈ a₀.vmmMap.from_ (start + i * kVmmAlignSize) := by
        rw [hiter]
        exact .head _
      obtain ⟨hentry, hle⟩ := OrdMap.mem_from_.mp hmem
      have hne : key ≠ addSize start (mulSize i kVmmAlignSize) := by
        rw [segment_eq]
        intro heq
        have hmod := Nat.mod_le (start + i * kVmmAlignSize) sizeBound
        have hkey : key = start + i * kVmmAlignSize := Nat.le_antisymm (heq ▸ hmod) hle
        rw [← hkey, OrdMap.find?_eq_some_iff.mpr hentry] at hnone
        cases hnone
      rw [hiter, mmapLoop] at hloop
      simp only [hne, ne_eq, not_false_eq_true, if_true] at hloop
      cases hloop
      exact ⟨rfl, rfl⟩

/-- The loop either gets a handle for every unmapped segment up to the first one that
is missing, or it gets too few of them and undoes everything. -/
theorem mmapLoop_outcome (host : Nat ↪ Nat) (maxSize start n : Nat) (hi₀ : Sane host a₀) :
    ∀ {i : Nat} {mapped : OrdMap Nat Nat} {a a' : VmmAdapter} {ok : Bool}, Sane host a →
      Mapping a₀ (a₀.vmmMap.from_ (start + i * kVmmAlignSize)) mapped a →
      mmapLoop host maxSize start n i (a₀.vmmMap.from_ (start + i * kVmmAlignSize)) mapped a =
        some (ok, a') →
      Sane host a' ∧
      (((segmentsFrom a₀.vmmMap n (start + i * kVmmAlignSize)).count none ≤ supply maxSize a ∧
        (ok = true ↔ (segmentsFrom a₀.vmmMap n (start + i * kVmmAlignSize)).length = n) ∧
        ∃ mapped', Mapping a₀ [] mapped' a' ∧ mapped'.entries.length = mapped.entries.length +
          (segmentsFrom a₀.vmmMap n (start + i * kVmmAlignSize)).count none) ∨
      (supply maxSize a < (segmentsFrom a₀.vmmMap n (start + i * kVmmAlignSize)).count none ∧
        ok = false ∧ a'.vmmMap = a₀.vmmMap)) := by
  induction n with
  | zero =>
      intro i mapped a a' ok hi hm hloop
      rw [mmapLoop] at hloop
      cases hloop
      exact ⟨hi, .inl ⟨Nat.zero_le _, ⟨fun _ => rfl, fun _ => rfl⟩, mapped, hm.finish, rfl⟩⟩
  | succ n ih =>
      intro i mapped a a' ok hi hm hloop
      rw [segmentsFrom]
      cases hk : a₀.vmmMap.find? (start + i * kVmmAlignSize) with
      | none =>
          obtain ⟨rfl, rfl⟩ := mmapLoop_missing hk hloop
          refine ⟨hi, .inl ⟨Nat.zero_le _, ⟨fun h => ?_, fun h => ?_⟩, mapped, hm.finish, rfl⟩⟩
          · cases h
          · cases h
      | some v =>
          dsimp only
          have hkey : addSize start (mulSize i kVmmAlignSize) = start + i * kVmmAlignSize := by
            rw [segment_eq]
            exact Nat.mod_eq_of_lt (hi₀.aligned _ v hk).2
          have hnext : start + i * kVmmAlignSize + kVmmAlignSize =
              start + (i + 1) * kVmmAlignSize := by
            rw [Nat.add_mul, Nat.one_mul, Nat.add_assoc]
          rw [hi₀.from_eq hk, mmapLoop] at hloop
          rw [hi₀.from_eq hk] at hm
          simp only [hkey, ne_eq, not_true_eq_false, if_false] at hloop
          rw [hnext] at hloop hm ⊢
          cases v with
          | some h =>
              simp only [Option.isSome_some, if_true] at hloop
              obtain ⟨hi', hres⟩ := ih hi hm.skip hloop
              refine ⟨hi', ?_⟩
              rw [List.count_cons_of_ne (by simp), List.length_cons, Nat.add_right_cancel_iff]
              exact hres
          | none =>
              simp only [Option.isSome_none, Bool.false_eq_true, if_false] at hloop
              rw [List.count_cons_self, List.length_cons, Nat.add_right_cancel_iff]
              cases htake : a.takeHandle host maxSize with
              | mk r a₁ =>
                  rw [htake] at hloop
                  obtain ⟨hvmm, hi₁, hr⟩ := hi.takeHandle htake
                  have hm₁ := hm.congr hvmm
                  rcases hr with ⟨rfl, rfl, hzero⟩ | ⟨h, rfl, hloose, hsupply⟩
                  · obtain ⟨a₂, hback, hi₂, hfind⟩ := hm₁.moveBack (unbinds_sane host) hi₁
                    dsimp only at hloop
                    rw [hback] at hloop
                    cases hloop
                    refine ⟨hi₂, .inr ⟨by omega, rfl, OrdMap.ext_find? hfind⟩⟩
                  · have hhead : a₁.vmmMap.find? (start + i * kVmmAlignSize) = some none :=
                      hm₁.ahead _ (.head _)
                    dsimp only at hloop
                    cases hmap : a₁.manager.map h (start + i * kVmmAlignSize) with
                    | none =>
                        rw [hmap] at hloop
                        cases hloop
                    | some res =>
                        obtain ⟨ret, m⟩ := res
                        obtain ⟨rfl, hi₂⟩ := hi₁.bind hloose hhead hmap
                        rw [hmap] at hloop
                        obtain ⟨hi', hres⟩ := ih hi₂ (hm₁.bind h) hloop
                        refine ⟨hi', ?_⟩
                        have hlen : (mapped.insert (start + i * kVmmAlignSize) h).entries.length =
                            mapped.entries.length + 1 :=
                          (OrdMap.perm_insert_of_none h hm₁.fresh).length_eq
                        rw [hlen] at hres
                        change (_ ≤ supply maxSize a₁ ∧ _) ∨ (supply maxSize a₁ < _ ∧ _) at hres
                        rw [← hsupply]
                        rcases hres with ⟨hle, hok, mapped', hm', hlen'⟩ | ⟨hlt, hres⟩
                        · refine .inl ⟨Nat.succ_le_succ hle, hok, mapped', hm', ?_⟩
                          rw [hlen', Nat.add_right_comm, Nat.add_assoc]
                        · exact .inr ⟨Nat.succ_lt_succ hlt, hres⟩

/-! ## Runs -/

/-- The segments that `MmapDeviceMem` has to map. -/
def mmapCount (size addr : Nat) (a : VmmAdapter) : Nat :=
  getRoundUpAlignSize (addSize size (addr - a.findVmmSegment addr)) / kVmmAlignSize

/-- The segments that `MmapDeviceMem` finds, in the state before the call. -/
def mmapSegments (size addr : Nat) (a : VmmAdapter) : List (Option Nat) :=
  segmentsFrom a.vmmMap (a.mmapCount size addr) (a.findVmmSegment addr)

/-- What `MmapDeviceMem` does when it returns. -/
theorem Sane.mmap (hi : Sane host a) {size addr r : Nat}
    (h : a.mmapDeviceMem host size addr maxSize = some (r, a')) :
    Sane host a' ∧
    ((a.findVmmSegment addr = 0 ∧ r = 0 ∧ a'.vmmMap = a.vmmMap) ∨
      (a.findVmmSegment addr ≠ 0 ∧
        (a.mmapSegments size addr).count none ≤ supply maxSize a ∧
        r = (if (a.mmapSegments size addr).length = a.mmapCount size addr then size else 0) ∧
        (a'.vmmMap = a.vmmMap ↔ (a.mmapSegments size addr).count none = 0)) ∨
      (a.findVmmSegment addr ≠ 0 ∧ supply maxSize a < (a.mmapSegments size addr).count none ∧
        r = 0 ∧ a'.vmmMap = a.vmmMap)) := by
  by_cases hstart : a.findVmmSegment addr = 0
  · simp only [mmapDeviceMem, hstart, if_true] at h
    cases h
    exact ⟨hi, .inl ⟨hstart, rfl, rfl⟩⟩
  · have hn := getHandleSize_roundUp (addSize size (addr - a.findVmmSegment addr))
    rw [mmapDeviceMem_eq hstart hn] at h
    change (mmapLoop host maxSize (a.findVmmSegment addr) (a.mmapCount size addr) 0 _ _ _).bind
      _ = _ at h
    obtain ⟨⟨ok, a₁⟩, hloop, hr⟩ := Option.bind_eq_some_iff.mp h
    cases hr
    have hzero : a.findVmmSegment addr = a.findVmmSegment addr + 0 * kVmmAlignSize := by
      rw [Nat.zero_mul, Nat.add_zero]
    have hm := mapping_start (a.findVmmSegment addr) a
    rw [mmapSegments]
    generalize a.mmapCount size addr = n at hloop ⊢
    generalize a.findVmmSegment addr = start at *
    have hloop' : mmapLoop host maxSize start n 0 (a.vmmMap.from_ (start + 0 * kVmmAlignSize))
        OrdMap.empty a = some (ok, a₁) := hzero ▸ hloop
    obtain ⟨hi', hres⟩ := mmapLoop_outcome host maxSize start n hi hi (hzero ▸ hm) hloop'
    rw [← hzero] at hres
    refine ⟨hi', .inr ?_⟩
    rcases hres with ⟨hle, hok, mapped', hm', hlen⟩ | ⟨hlt, rfl, hsame⟩
    · refine .inl ⟨hstart, hle, ?_, ?_⟩
      · by_cases hfull : (segmentsFrom a.vmmMap n start).length = n
        · rw [if_pos hfull, if_pos (hok.mpr hfull)]
        · rw [if_neg hfull, if_neg (hok.not.mpr hfull)]
      · rw [hm'.unchanged_iff, hlen]
        show 0 + _ = 0 ↔ _
        rw [Nat.zero_add]
    · exact .inr ⟨hstart, hlt, rfl, hsame⟩

/-- A region may be reserved a second time. -/
theorem Sane.reserved (hi : Sane host a) {size : Nat} (hsize : size % kVmmAlignSize = 0)
    (hlt : size < sizeBound) : Sane host (a.reserved size (size / kVmmAlignSize)) := by
  have hfind := find?_reserveSegments a.manager.baseAddr (size / kVmmAlignSize) 0 a.vmmMap
  -- what is mapped afterwards was mapped before
  have hkept : ∀ k h, (a.reserved size (size / kVmmAlignSize)).vmmMap.find? k = some (some h) →
      a.vmmMap.find? k = some (some h) := by
    intro k h hk
    rw [reserved_vmmMap, hfind] at hk
    split at hk
    · cases hk
    · exact hk
  exact {
    aligned := by
      intro k v hv
      rw [reserved_vmmMap, hfind] at hv
      split at hv
      · rename_i hk
        obtain ⟨j, _, rfl⟩ := hk
        exact segment_aligned hi.base.1
      · exact hi.aligned k v hv
    base := by
      refine ⟨?_, addSize_lt _ _⟩
      have hbase := hi.base.1
      show addSize a.manager.baseAddr size % kVmmAlignSize = 0
      simp only [addSize, kVmmAlignSize, sizeBound] at *
      omega
    filled := hi.filled.reserve hi.base hsize hlt
    mapped := fun k h hk => hi.mapped k h (hkept k h hk)
    cached := hi.cached
    spare := fun h hh => ⟨(hi.spare h hh).1, fun k hk => (hi.spare h hh).2 k (hkept k h hk)⟩
    made := hi.made
    size := hi.size
    limit := hi.limit
    real := hi.real }

theorem Sane.alloc (hi : Sane host a) {size : Nat} {r : Nat × Nat}
    (h : a.allocDeviceMem size = some (r, a')) : Sane host a' := by
  rw [allocDeviceMem_eq] at h
  obtain ⟨-, rfl⟩ := Prod.mk.inj (Option.some.inj h)
  exact hi.reserved (roundUp_mod size) (roundUp_lt size)

/-- Any calls, each with a limit of its own. -/
def CallStep (host : Nat ↪ Nat) (a : VmmAdapter) (l : VmmCall × Nat) (a' : VmmAdapter) : Prop :=
  Step host l.2 a l.1 a'

theorem Sane.step (hi : Sane host a) {l : VmmCall × Nat} (h : CallStep host a l a') :
    Sane host a' := by
  obtain ⟨c, limit⟩ := l
  cases c with
  | alloc size =>
      obtain ⟨⟨r, a₁⟩, hres, rfl⟩ := Option.map_eq_some_iff.mp h
      exact hi.alloc hres
  | mmap size addr =>
      obtain ⟨⟨r, a₁⟩, hres, rfl⟩ := Option.map_eq_some_iff.mp h
      exact (hi.mmap hres).1
  | eagerFree addr size =>
      obtain ⟨⟨r, a₁⟩, hres, rfl⟩ := Option.map_eq_some_iff.mp h
      obtain ⟨n, a₂, hres', hi₂, -⟩ := eagerFree_spec (unbinds_sane host) hi addr size
      rw [hres] at hres'
      cases hres'
      exact hi₂

theorem sane_of_run {ls : List (VmmCall × Nat)} (h : Run (CallStep host) {} ls a) :
    Sane host a :=
  h.state_inv (sane_init host) fun _ _ _ hi hs => hi.step hs

/-- The calls of `MmapDeviceMem` that leave nothing mapped when they return `0`: no segment
is found, or there is nothing to map, or the handles do not reach, or all segments are
reserved and the size is not `0`. -/
def MmapUndone (maxSize size addr : Nat) (a : VmmAdapter) : Prop :=
  a.findVmmSegment addr = 0 ∨ (a.mmapSegments size addr).count none = 0 ∨
    supply maxSize a < (a.mmapSegments size addr).count none ∨
    ((a.mmapSegments size addr).length = a.mmapCount size addr ∧ size ≠ 0)

/-- After any run a call of `MmapDeviceMem` that returns `0` has left `vmm_map_` alone
exactly in these cases. -/
theorem mmap_undone_iff (host : Nat ↪ Nat) {ls : List (VmmCall × Nat)}
    (hrun : Run (CallStep host) {} ls a) (maxSize size addr : Nat) {r : Nat}
    (h : a.mmapDeviceMem host size addr maxSize = some (r, a')) :
    (r = 0 → a'.vmmMap = a.vmmMap) ↔ MmapUndone maxSize size addr a := by
  obtain ⟨-, hres⟩ := (sane_of_run hrun).mmap h
  unfold MmapUndone
  rcases hres with ⟨hstart, -, hsame⟩ | ⟨hstart, hle, hr, hiff⟩ | ⟨-, hlt, -, hsame⟩
  · exact ⟨fun _ => .inl hstart, fun _ _ => hsame⟩
  · have hnot := not_lt.mpr hle
    rw [hiff, hr]
    by_cases hfull : (a.mmapSegments size addr).length = a.mmapCount size addr
    · simp only [hstart, hnot, hfull, if_true, true_and, false_or]
      tauto
    · simp only [hstart, hnot, hfull, if_false, false_and, false_or, or_false, true_implies]
  · exact ⟨fun _ => .inr (.inr (.inl hlt)), fun _ _ => hsame⟩

/-- The adapter with one region of `n` segments. -/
def oneRegion (n : Nat) : VmmAdapter := reserved (n * kVmmAlignSize) n {}

theorem run_oneRegion {n : Nat} (hn : n < 2 ^ 43) (maxSize : Nat) :
    Run (CallStep host) {} [(.alloc (n * kVmmAlignSize), maxSize)] (oneRegion n) := by
  have hsize : getRoundUpAlignSize (n * kVmmAlignSize) = n * kVmmAlignSize := by
    simp only [getRoundUpAlignSize, kVmmAlignSize, sizeBound]
    omega
  have hcount : n * kVmmAlignSize / kVmmAlignSize = n := Nat.mul_div_cancel n (by decide)
  have hstep := step_alloc host maxSize (n * kVmmAlignSize) {}
  rw [hsize, hcount] at hstep
  exact .single hstep

/-- One of three segments is mapped, and everything is in order. -/
theorem mmap_undone_iff_three :
    ∃ r a', Run (CallStep (.refl Nat)) {} [(.alloc (3 * kVmmAlignSize), 0)] (oneRegion 3) ∧
      (oneRegion 3).mmapDeviceMem (.refl Nat) 1 kVmmAlignSize kMaxUsedMemSize = some (r, a') ∧
      ((r = 0 → a'.vmmMap = (oneRegion 3).vmmMap) ↔
        MmapUndone kMaxUsedMemSize 1 kVmmAlignSize (oneRegion 3)) := by
  have hrun : Run (CallStep (.refl Nat)) {} [(.alloc (3 * kVmmAlignSize), 0)] (oneRegion 3) :=
    run_oneRegion (by decide) 0
  have hcall : ((oneRegion 3).mmapDeviceMem (.refl Nat) 1 kVmmAlignSize
      kMaxUsedMemSize).map Prod.fst = some 1 := by
    decide +kernel
  obtain ⟨⟨r, a'⟩, h, -⟩ := Option.map_eq_some_iff.mp hcall
  exact ⟨r, a', hrun, h, mmap_undone_iff (.refl Nat) hrun kMaxUsedMemSize 1 kVmmAlignSize h⟩

/-- Two segments are reserved and two are asked for from the second one on. The second
segment is mapped, the third is not there, and the call returns `0`. -/
theorem mmap_left_half_done :
    ¬ ∀ (host : Nat ↪ Nat) (ls : List (VmmCall × Nat)) (a a' : VmmAdapter)
      (maxSize size addr r : Nat), Run (CallStep host) {} ls a →
      a.mmapDeviceMem host size addr maxSize = some (r, a') → r = 0 → a'.vmmMap = a.vmmMap := by
  intro hall
  have hcall : ((oneRegion 2).mmapDeviceMem (.refl Nat) (2 * kVmmAlignSize) kVmmAlignSize
      kMaxUsedMemSize).map (fun x => (x.1, x.2.vmmMap.find? kVmmAlignSize)) =
      some (0, some (some 0)) := by
    decide +kernel
  obtain ⟨⟨r, a'⟩, h, hres⟩ := Option.map_eq_some_iff.mp hcall
  obtain ⟨hr, hfind⟩ := Prod.mk.inj hres
  have hbefore : (oneRegion 2).vmmMap.find? kVmmAlignSize = some none := by
    decide +kernel
  have hsame := hall (.refl Nat) _ _ a' _ _ _ r (run_oneRegion (by decide) 0) h hr
  dsimp only at hfind
  rw [hsame, hbefore] at hfind
  cases hfind

end VmmAdapter

end Ccbase.Memory
