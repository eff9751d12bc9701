import Ccbase.Memory.Runs

/-!
# A device with a linear address space

The smallest device that does what the pool relies on: regions are handed out
one behind the other, and a mapping succeeds as long as there is physical memory
for it, if that is limited at all. Nothing is ever unmapped. The examples of runs of
the pool are runs on this device.
-/

namespace Ccbase.Memory

open Ccbase.Lib

structure LinearState where
  regions : List (Nat × Nat) := []
  frontier : Nat
  mappable : Nat
  start : 0 < frontier
  below : ∀ r ∈ regions, r.1 + r.2 ≤ frontier

namespace LinearState

/-- Nothing handed out yet. -/
def init (mappable : Nat) : LinearState where
  frontier := kDynamicMemAlignSize
  mappable := mappable
  start := by decide
  below := fun _ h => by cases h

def alloc (n : Nat) (d : LinearState) : (Nat × Nat) × LinearState :=
  if n = 0 ∨ sizeBound ≤ d.frontier + n then ((0, 0), d)
  else ((n, d.frontier),
    { d with
      regions := (d.frontier, n) :: d.regions
      frontier := d.frontier + n
      start := Nat.lt_of_lt_of_le d.start (Nat.le_add_right ..)
      below := fun r hr => by
        rcases List.mem_cons.mp hr with rfl | hr
        · exact Nat.le_refl _
        · exact Nat.le_trans (d.below r hr) (Nat.le_add_right ..) })

def mmap (size : Nat) (d : LinearState) : Nat × LinearState :=
  if size ≤ d.mappable then (size, { d with mappable := d.mappable - size }) else (0, d)

end LinearState

/-- With or without a limit to the physical memory. -/
def linearDevice (eager limited : Bool) : Device LinearState where
  allocDeviceMem n d := some (d.alloc n)
  freeDeviceMem _ d := some (true, d)
  allocDeviceMemByEagerFree n d := some (d.alloc n)
  freeDeviceMemByEagerFree _ _ d := some (0, d)
  mmapDeviceMem size _ d := some (if limited then d.mmap size else (size, d))
  syncAllStreams d := some (true, d)
  freeMemSize d := sizeBound - 1 - d.frontier
  totalMemSize _ := kDynamicMemAllocUnitSize
  isEnableEagerFree := eager

namespace LinearState

variable {eager limited b : Bool} {n size addr : Nat} {d d' : LinearState}

theorem allocMem_eq (h : (linearDevice eager limited).allocMem b n d = some ((size, addr), d')) :
    d.alloc n = ((size, addr), d') := by
  unfold Device.allocMem at h
  split at h <;> exact Option.some.inj h

theorem alloc_cases (h : d.alloc n = ((size, addr), d')) :
    (size = 0 ∧ d' = d) ∨ (size ≠ 0 ∧ addr = d.frontier ∧ addr + size < sizeBound ∧
      d'.regions = (addr, size) :: d.regions) := by
  unfold alloc at h
  split at h
  · cases h
    exact .inl ⟨rfl, rfl⟩
  · rename_i hn
    cases h
    exact .inr ⟨by omega, rfl, by omega, rfl⟩

end LinearState

/-- All regions, of both kinds, stay where they are. -/
def linearLaw (eager limited : Bool) : DeviceLaw (linearDevice eager limited) where
  held _ d := d.regions
  fresh := fun b n d size addr d' h hsize r hr => by
    rcases LinearState.alloc_cases (LinearState.allocMem_eq h) with ⟨h0, _⟩ | ⟨_, ha, _, _⟩
    · exact absurd h0 hsize
    · refine .inr ?_
      rw [ha]
      exact d.below r hr
  given := fun b n d size addr d' h hsize => by
    rcases LinearState.alloc_cases (LinearState.allocMem_eq h) with ⟨h0, _⟩ | ⟨_, _, _, hr⟩
    · exact absurd h0 hsize
    · rw [hr]
      exact List.mem_cons_self ..
  kept := fun b n d x d' h _ r hr => by
    obtain ⟨size, addr⟩ := x
    rcases LinearState.alloc_cases (LinearState.allocMem_eq h) with ⟨_, rfl⟩ | ⟨_, _, _, heq⟩
    · exact hr
    · rw [heq]
      exact List.mem_cons_of_mem _ hr
  eagerFree := fun addr size d n d' h _ r hr => by
    cases h
    exact hr
  mmap := fun size addr d n d' h _ r hr => by
    have h : (if limited then d.mmap size else (size, d)) = (n, d') := Option.some.inj h
    split at h
    · unfold LinearState.mmap at h
      split at h <;> (cases h; exact hr)
    · cases h
      exact hr
  sync := fun d ok d' h _ r hr => by
    cases h
    exact hr

theorem linearLaw_disjoint (eager limited : Bool) : (linearLaw eager limited).Disjoint :=
  fun b n d size addr d' h hsize _ r hr =>
    (linearLaw eager limited).fresh b n d size addr d' h hsize r hr

theorem linearDevice_bounded (eager limited : Bool) :
    (linearDevice eager limited).Bounded := by
  intro b n d size addr d' h hsize
  rcases LinearState.alloc_cases (LinearState.allocMem_eq h) with ⟨h0, _⟩ | ⟨_, _, hlt, _⟩
  · exact absurd h0 hsize
  · exact hlt

end Ccbase.Memory
