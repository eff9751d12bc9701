import Ccbase.Memory.VmmRuns

/-!
# Mapping inside a region

Regions are reserved and nothing is mapped yet; then one call of `MmapDeviceMem`
for a range inside a region. The call finds every segment of the range and maps
it, except for a range that starts in the first segment handed out: this one is
at address `0`, which `FindVmmSegment` returns for no segment.
-/

namespace Ccbase.Memory

open Ccbase.Lib

namespace VmmAdapter

variable {host : Nat ↪ Nat} {maxSize : Nat} {a a' : VmmAdapter} {k : Nat}

/-- `AllocDeviceMem`, with the size asked for, the size it returns and the start
of the region. -/
def AllocStep (a : VmmAdapter) (l : Nat × Nat × Nat) (a' : VmmAdapter) : Prop :=
  a.allocDeviceMem l.1 = some (l.2, a')

/-- The address `x` lies in the region of `len` bytes at `start`, which may go
around the end of the address space. -/
def InRegion (start len x : Nat) : Prop := x < sizeBound ∧ subSize x start < len

instance (start len x : Nat) : Decidable (InRegion start len x) :=
  inferInstanceAs (Decidable (_ ∧ _))

/-- The segment of an address. -/
def segmentOf (x : Nat) : Nat := x / kVmmAlignSize * kVmmAlignSize

theorem segmentOf_le (x : Nat) : segmentOf x ≤ x ∧ x < segmentOf x + kVmmAlignSize := by
  unfold segmentOf kVmmAlignSize
  omega

/-- The segments a range has bytes in. -/
def segmentCount (size addr : Nat) : Nat :=
  (addr + size + (kVmmAlignSize - 1)) / kVmmAlignSize - addr / kVmmAlignSize

/-- The call returns the size, and every segment that the range has bytes in is
mapped, in `vmm_map_` and by the driver. -/
def Mmaps (host : Nat ↪ Nat) (size addr maxSize : Nat) (a : VmmAdapter) : Prop :=
  ∃ a', a.mmapDeviceMem host size addr maxSize = some (size, a') ∧
    ∀ k, k % kVmmAlignSize = 0 → k < addr + size → addr < k + kVmmAlignSize →
      ∃ h, a'.vmmMap.find? k = some (some h) ∧ a'.manager.mappedAddrs.find? k = some h

/-! ## Reserved and not mapped -/

/-- The adapter as `AllocDeviceMem` alone leaves it. -/
structure Reserved (host : Nat ↪ Nat) (regions : List (Nat × Nat × Nat)) (a : VmmAdapter) :
    Prop where
  sane : Sane host a
  inv : ∀ maxSize, Inv host maxSize [] a
  unmapped : ∀ k v, a.vmmMap.find? k = some v → v = none
  unused : a.physicalHandleSize = 0 ∧ a.cachedHandleSets = []
  segments : ∀ r ∈ regions, ∀ x, InRegion r.2.2 r.2.1 x →
    (a.vmmMap.find? (segmentOf x)).isSome

theorem reserved_init (host : Nat ↪ Nat) : Reserved host [] {} where
  sane := sane_init host
  inv := inv_init host
  unmapped := fun _ _ hk => by cases hk
  unused := ⟨rfl, rfl⟩
  segments := fun _ hr => by cases hr

/-- The segment of `x`, counted from an aligned start. -/
theorem segmentOf_eq {base x : Nat} (hbase : base % kVmmAlignSize = 0 ∧ base < sizeBound)
    (hx : x < sizeBound) :
    segmentOf x = (base + subSize x base / kVmmAlignSize * kVmmAlignSize) % sizeBound := by
  obtain ⟨halign, hlt⟩ := hbase
  rcases Nat.lt_or_ge x base with hbefore | hbehind
  · have hwrap : subSize x base = x + sizeBound - base := by
      rw [subSize, Nat.mod_eq_of_lt hlt]
      simp only [sizeBound] at *
      omega
    rw [hwrap]
    simp only [segmentOf, kVmmAlignSize, sizeBound] at *
    omega
  · rw [subSize_eq hx hbehind]
    simp only [segmentOf, kVmmAlignSize, sizeBound] at *
    omega

/-- The segments of a new region. -/
theorem segmentOf_region {base size x : Nat}
    (hbase : base % kVmmAlignSize = 0 ∧ base < sizeBound) (hsize : size % kVmmAlignSize = 0)
    (hx : InRegion base size x) :
    ∃ j < size / kVmmAlignSize, segmentOf x = addSize base (mulSize (0 + j) kVmmAlignSize) := by
  refine ⟨subSize x base / kVmmAlignSize, ?_, ?_⟩
  · refine Nat.div_lt_of_lt_mul ?_
    rw [Nat.mul_div_cancel' (Nat.dvd_of_mod_eq_zero hsize)]
    exact hx.2
  · rw [segment_eq, Nat.zero_add]
    exact segmentOf_eq hbase hx.1

theorem Reserved.step {regions : List (Nat × Nat × Nat)} {l : Nat × Nat × Nat}
    (hr : Reserved host regions a) (h : AllocStep a l a') :
    Reserved host (regions ++ [l]) a' := by
  obtain ⟨asked, len, start⟩ := l
  have hcall : a.allocDeviceMem asked = some ((len, start), a') := h
  have hfree : ReservesFree a (.alloc asked) := by
    intro j _
    cases hfind : a.vmmMap.find? (addSize a.manager.baseAddr (mulSize j kVmmAlignSize)) with
    | none => rfl
    | some v => exact hr.unmapped _ v hfind
  have hsane := hr.sane.alloc hcall
  have hinv : ∀ maxSize, Inv host maxSize [] a' := fun maxSize =>
    (hr.inv maxSize).alloc hfree hcall
  rw [allocDeviceMem_eq] at hcall
  obtain ⟨hlabel, rfl⟩ := Prod.mk.inj (Option.some.inj hcall)
  obtain ⟨rfl, rfl⟩ := Prod.mk.inj hlabel
  have hfind := find?_reserveSegments a.manager.baseAddr
    (getRoundUpAlignSize asked / kVmmAlignSize) 0 a.vmmMap
  refine ⟨hsane, hinv, ?_, ?_, ?_⟩
  · intro k v hk
    rw [reserved_vmmMap, hfind] at hk
    split at hk
    · exact (Option.some.inj hk).symm
    · exact hr.unmapped k v hk
  · rw [reserved_physical, reserved_cached]
    exact hr.unused
  · intro r hmem x hx
    rw [reserved_vmmMap, hfind]
    by_cases hnew : ∃ j < getRoundUpAlignSize asked / kVmmAlignSize,
        segmentOf x = addSize a.manager.baseAddr (mulSize (0 + j) kVmmAlignSize)
    · rw [if_pos hnew]
      rfl
    · rw [if_neg hnew]
      rcases List.mem_append.mp hmem with hmem | hmem
      · exact hr.segments r hmem x hx
      · obtain rfl := List.mem_singleton.mp hmem
        exact absurd (segmentOf_region hr.sane.base (roundUp_mod asked) hx) hnew

theorem reserved_of_run (host : Nat ↪ Nat) {ls : List (Nat × Nat × Nat)}
    (h : Run AllocStep {} ls a) : Reserved host ls a :=
  h.inv (I := fun ls s => Reserved host ls s) (reserved_init host) fun _ _ _ _ hr hs => hr.step hs

/-! ## The segments of a range -/

theorem Sane.findVmmSegment (hi : Sane host a) {x : Nat}
    (hx : (a.vmmMap.find? (segmentOf x)).isSome) : a.findVmmSegment x = segmentOf x := by
  obtain ⟨v, hv⟩ := Option.isSome_iff_exists.mp hx
  have hmem := OrdMap.find?_eq_some_iff.mp hv
  have hseg := segmentOf_le x
  rw [VmmAdapter.findVmmSegment]
  cases hfloor : a.vmmMap.floor? x with
  | none =>
      have := OrdMap.floor?_eq_none hfloor _ hmem
      dsimp only at this
      omega
  | some e =>
      obtain ⟨he, hle, hgreatest⟩ := OrdMap.floor?_eq_some hfloor
      have halign := (hi.aligned e.1 e.2 (OrdMap.find?_eq_some_iff.mpr he)).1
      have := hgreatest _ hmem hseg.1
      dsimp only at this ⊢
      simp only [segmentOf, kVmmAlignSize] at *
      omega

/-- A range of reserved segments that are not mapped. -/
theorem segmentsFrom_unmapped {m : OrdMap Nat (Option Nat)} (n : Nat) :
    ∀ k, (∀ j < n, m.find? (k + j * kVmmAlignSize) = some none) →
      segmentsFrom m n k = List.replicate n none := by
  induction n with
  | zero => exact fun _ _ => rfl
  | succ n ih =>
      intro k hall
      have hfirst := hall 0 (Nat.succ_pos n)
      rw [Nat.zero_mul, Nat.add_zero] at hfirst
      rw [segmentsFrom, hfirst, List.replicate_succ]
      dsimp only
      rw [ih (k + kVmmAlignSize)]
      intro j hj
      rw [← hall (j + 1) (Nat.succ_lt_succ hj), Nat.add_mul, Nat.one_mul, Nat.add_assoc,
        Nat.add_comm kVmmAlignSize]

/-- Where the walk of `MmapDeviceMem` ends: at the last segment of the range. -/
theorem mmapCount_eq {size addr : Nat} (hstart : a.findVmmSegment addr = segmentOf addr)
    (hlow : kVmmAlignSize ≤ addr) (hend : addr + size ≤ sizeBound) :
    a.mmapCount size addr = segmentCount size addr := by
  have hseg := segmentOf_le addr
  have hsum : addSize size (addr - segmentOf addr) = size + (addr - segmentOf addr) := by
    refine addSize_eq ?_
    simp only [segmentOf, kVmmAlignSize, sizeBound] at *
    omega
  have hround : (size + (addr - segmentOf addr) + (kVmmAlignSize - 1)) % sizeBound =
      size + (addr - segmentOf addr) + (kVmmAlignSize - 1) := by
    refine Nat.mod_eq_of_lt ?_
    simp only [segmentOf, kVmmAlignSize, sizeBound] at *
    omega
  rw [mmapCount, hstart, hsum, getRoundUpAlignSize, hround, Nat.mul_div_cancel _ (by decide)]
  simp only [segmentCount, segmentOf, kVmmAlignSize] at *
  omega

/-- The segments that a range has bytes in, counted. -/
theorem segment_of_range {size addr : Nat} (hk : k % kVmmAlignSize = 0) (hlt : k < addr + size)
    (hgt : addr < k + kVmmAlignSize) :
    ∃ j < segmentCount size addr, k = segmentOf addr + j * kVmmAlignSize := by
  refine ⟨(k - segmentOf addr) / kVmmAlignSize, ?_, ?_⟩ <;>
  · simp only [segmentCount, segmentOf, kVmmAlignSize] at *
    omega

/-- Every segment counted has a byte of the range. -/
theorem byte_of_segment {size addr j : Nat} (hpos : 0 < size) (hj : j < segmentCount size addr) :
    ∃ x, addr ≤ x ∧ x < addr + size ∧ segmentOf x = segmentOf addr + j * kVmmAlignSize := by
  refine ⟨max addr (segmentOf addr + j * kVmmAlignSize), le_max_left _ _, ?_, ?_⟩ <;>
  · simp only [segmentCount, segmentOf, kVmmAlignSize] at *
    omega

/-- A range inside a region of `a`. -/
structure RangeInRegion (size addr : Nat) (a : VmmAdapter) : Prop where
  nonempty : 0 < size
  fits : addr + size ≤ sizeBound
  segments : ∀ x, addr ≤ x → x < addr + size → a.vmmMap.find? (segmentOf x) = some none

theorem Reserved.range {regions : List (Nat × Nat × Nat)} (hr : Reserved host regions a)
    {r : Nat × Nat × Nat} (hmem : r ∈ regions) {size addr : Nat} (hpos : 0 < size)
    (hin : ∀ x, addr ≤ x → x < addr + size → InRegion r.2.2 r.2.1 x) :
    RangeInRegion size addr a where
  nonempty := hpos
  fits := by
    have hlast := (hin (addr + size - 1) (by omega) (by omega)).1
    omega
  segments := by
    intro x hle hlt
    obtain ⟨v, hv⟩ := Option.isSome_iff_exists.mp (hr.segments r hmem x (hin x hle hlt))
    rw [hv, hr.unmapped _ v hv]

theorem RangeInRegion.start {size addr : Nat} (hi : Sane host a) (hin : RangeInRegion size addr a) :
    a.findVmmSegment addr = segmentOf addr := by
  refine hi.findVmmSegment ?_
  rw [hin.segments addr (le_refl _) (Nat.lt_add_of_pos_right hin.nonempty)]
  rfl

theorem RangeInRegion.mmapSegments {size addr : Nat} (hi : Sane host a)
    (hin : RangeInRegion size addr a) (hlow : kVmmAlignSize ≤ addr) :
    a.mmapSegments size addr = List.replicate (segmentCount size addr) none := by
  have hstart := hin.start hi
  rw [VmmAdapter.mmapSegments, mmapCount_eq hstart hlow hin.fits, hstart]
  refine segmentsFrom_unmapped _ _ fun j hj => ?_
  obtain ⟨x, hle, hlt, hx⟩ := byte_of_segment hin.nonempty hj
  rw [← hx]
  exact hin.segments x hle hlt

/-! ## The call -/

/-- In the first segment the call finds nothing. -/
theorem not_mmaps_of_first {size addr : Nat} (hi : Sane host a) (hin : RangeInRegion size addr a)
    (hlow : addr < kVmmAlignSize) : ¬ Mmaps host size addr maxSize a := by
  rintro ⟨a', hcall, -⟩
  have hstart : a.findVmmSegment addr = 0 := by
    rw [hin.start hi, segmentOf, Nat.div_eq_of_lt hlow, Nat.zero_mul]
  rcases (hi.mmap hcall).2 with ⟨-, hsize, -⟩ | ⟨hne, -⟩ | ⟨hne, -⟩
  · exact absurd hsize hin.nonempty.ne'
  · exact hne hstart
  · exact hne hstart

/-- What a call that returns the size has mapped. -/
theorem mmaps_of_returns {size addr : Nat} (hi : Inv host maxSize [] a) (hs : Sane host a)
    (hin : RangeInRegion size addr a) (hlow : kVmmAlignSize ≤ addr)
    (hcall : a.mmapDeviceMem host size addr maxSize = some (size, a')) :
    Mmaps host size addr maxSize a := by
  refine ⟨a', hcall, fun k hk hlt hgt => ?_⟩
  obtain ⟨n, a₁, hcall', hi', -, -, hdone⟩ := hi.mmap size addr
  obtain ⟨rfl, rfl⟩ := Prod.mk.inj (Option.some.inj (hcall.symm.trans hcall'))
  obtain ⟨-, -, hmapped⟩ := hdone hin.nonempty.ne'
  obtain ⟨j, hj, rfl⟩ := segment_of_range hk hlt hgt
  have hstart := hin.start hs
  have hcount := mmapCount_eq hstart hlow hin.fits
  obtain ⟨h, hh⟩ := hmapped j (by rw [← hcount] at hj; exact hj)
  have hbound : segmentOf addr + j * kVmmAlignSize < sizeBound :=
    Nat.lt_of_lt_of_le hlt hin.fits
  rw [hstart, segment_eq, Nat.mod_eq_of_lt hbound] at hh
  exact ⟨h, hh, (hi'.mapped _ h).mp hh⟩

/-- Behind the first segment the call succeeds when the handles reach. -/
theorem mmaps_iff_supply {size addr : Nat} (hi : Inv host maxSize [] a) (hs : Sane host a)
    (hin : RangeInRegion size addr a) (hlow : kVmmAlignSize ≤ addr) :
    Mmaps host size addr maxSize a ↔ segmentCount size addr ≤ supply maxSize a := by
  have hsegments := hin.mmapSegments hs hlow
  have hcount := mmapCount_eq (hin.start hs) hlow hin.fits
  obtain ⟨r, a', hcall, -⟩ := hi.mmap size addr
  have hres := (hs.mmap hcall).2
  rw [hsegments, hcount, List.count_replicate_self, List.length_replicate] at hres
  have hstart : a.findVmmSegment addr ≠ 0 := by
    rw [hin.start hs]
    have := (segmentOf_le addr).2
    omega
  rcases hres with ⟨hzero, -⟩ | ⟨-, hle, hr, -⟩ | ⟨-, hlt, hr, -⟩
  · exact absurd hzero hstart
  · refine iff_of_true ?_ hle
    rw [if_pos rfl] at hr
    rw [hr] at hcall
    exact mmaps_of_returns hi hs hin hlow hcall
  · refine iff_of_false ?_ (not_le.mpr hlt)
    rintro ⟨a'', hcall', -⟩
    rw [hcall] at hcall'
    have hsize := (Prod.mk.inj (Option.some.inj hcall')).1
    exact hin.nonempty.ne' (hsize.symm.trans hr)

/-- After any run of `AllocDeviceMem`, with a range inside a region and room for
the handles it needs, `MmapDeviceMem` maps the range exactly if it lies behind
the first segment and the driver has that many handles. -/
theorem mmap_region_iff (host : Nat ↪ Nat) {ls : List (Nat × Nat × Nat)}
    (hrun : Run AllocStep {} ls a) {r : Nat × Nat × Nat} (hmem : r ∈ ls)
    {size addr maxSize : Nat} (hpos : 0 < size)
    (hin : ∀ x, addr ≤ x → x < addr + size → InRegion r.2.2 r.2.1 x)
    (hroom : segmentCount size addr ≤ handleLimit maxSize) :
    Mmaps host size addr maxSize a ↔
      kVmmAlignSize ≤ addr ∧ segmentCount size addr ≤ handleLimit kMaxUsedMemSize := by
  have hr := reserved_of_run host hrun
  have hrange := hr.range hmem hpos hin
  by_cases hlow : kVmmAlignSize ≤ addr
  · rw [mmaps_iff_supply (hr.inv maxSize) hr.sane hrange hlow, supply_nil hr.unused.2, hr.unused.1,
      Nat.sub_zero, le_min_iff]
    exact ⟨fun h => ⟨hlow, h.2⟩, fun h => ⟨hroom, h.2⟩⟩
  · exact iff_of_false (not_mmaps_of_first hr.sane hrange (not_le.mp hlow)) fun h => hlow h.1

theorem alloc_oneRegion {n : Nat} (hn : n < 2 ^ 43) :
    AllocStep {} (n * kVmmAlignSize, n * kVmmAlignSize, 0) (oneRegion n) := by
  have hsize : getRoundUpAlignSize (n * kVmmAlignSize) = n * kVmmAlignSize := by
    simp only [getRoundUpAlignSize, kVmmAlignSize, sizeBound]
    omega
  have hcount : n * kVmmAlignSize / kVmmAlignSize = n := Nat.mul_div_cancel n (by decide)
  rw [AllocStep, allocDeviceMem_eq, hsize, hcount]
  rfl

/-- A region of three segments, and the two bytes around the start of the third one. -/
theorem mmap_region_iff_three :
    Mmaps (.refl Nat) 2 (2 * kVmmAlignSize - 1) (2 * kVmmAlignSize) (oneRegion 3) := by
  have hrun : Run AllocStep {} [(3 * kVmmAlignSize, 3 * kVmmAlignSize, 0)] (oneRegion 3) :=
    .single (alloc_oneRegion (by decide))
  refine (mmap_region_iff (.refl Nat) hrun (List.mem_singleton.mpr rfl) (by decide) ?_
    (by decide)).mpr (by decide)
  intro x hle hlt
  dsimp only
  refine ⟨?_, ?_⟩
  · simp only [kVmmAlignSize, sizeBound] at *
    omega
  · rw [subSize_zero (by simp only [kVmmAlignSize, sizeBound] at *; omega)]
    simp only [kVmmAlignSize] at *
    omega

/-- The first region starts at address `0`, and mapping its first byte fails. -/
theorem mmap_first_region :
    ¬ ∀ (host : Nat ↪ Nat) (ls : List (Nat × Nat × Nat)) (a : VmmAdapter) (r : Nat × Nat × Nat)
      (size addr maxSize : Nat), Run AllocStep {} ls a → r ∈ ls → 0 < size →
      (∀ x, addr ≤ x → x < addr + size → InRegion r.2.2 r.2.1 x) →
      segmentCount size addr ≤ handleLimit maxSize → Mmaps host size addr maxSize a := by
  intro hall
  have hrun : Run AllocStep {} [(1 * kVmmAlignSize, 1 * kVmmAlignSize, 0)] (oneRegion 1) :=
    .single (alloc_oneRegion (by decide))
  obtain ⟨a', hcall, -⟩ := hall (.refl Nat) _ _ _ 1 0 kMaxUsedMemSize hrun
    (List.mem_singleton.mpr rfl) (by decide)
    (fun x _ hlt => by
      obtain rfl : x = 0 := by omega
      decide)
    (by decide)
  have hzero : ((oneRegion 1).mmapDeviceMem (.refl Nat) 1 0 kMaxUsedMemSize).map Prod.fst =
      some 0 := by
    decide +kernel
  rw [hcall] at hzero
  cases hzero

end VmmAdapter

end Ccbase.Memory
