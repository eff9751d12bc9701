import Ccbase.Lib.Heap
import Ccbase.Lib.SizeT
import Ccbase.Lib.OrdSet
import Ccbase.Lib.OrdMap
import Ccbase.Memory.Basic
import Mathlib.Logic.Embedding.Basic

/-!
# `VmmManager` and `AscendVmmAdapter`

The simulated driver and the adapter over it. The driver reserves virtual
addresses one behind the other, makes physical handles of 2MB, and keeps the
table of mapped addresses; the adapter keeps for every segment of 2MB that it
has reserved the handle mapped there, and a cache of handles that are not
mapped.

A handle is a pointer into a heap, `none` for `nullptr`. A call that throws
`std::runtime_error` is `none`. The sets of handles are ordered by where the
host has put the handles, which is any injective choice `host`. An iterator of
`vmm_map_` is the list of the entries from there on: the loops write only behind
their iterator.
-/

namespace Ccbase.Memory

open Ccbase.Lib

def kMbByte : Nat := 2 ^ 20

def kDefaultMapSize : Nat := kMbByte * 2

def kVmmAlignSize : Nat := 2 * (1024 * 1024)

structure MemHandle where
  mapped : Bool := false
  addr : Nat := 0
  size : Nat := 0
  deriving DecidableEq, Repr

namespace MemHandle

def map (addr : Nat) (_ : MemHandle) : MemHandle :=
  { mapped := true, addr := addr, size := kDefaultMapSize }

def unmap (_ : MemHandle) : MemHandle := {}

end MemHandle

/-- `VmmManager`. `objects` are the handles the host has made. -/
structure VmmManager where
  objects : Heap MemHandle := Heap.empty
  handles : List Nat := []
  maxMemSize : Nat
  baseAddr : Nat := 0
  mappedAddrs : OrdMap Nat Nat := OrdMap.empty

namespace VmmManager

def mallocVirtualAddress (size : Nat) (m : VmmManager) : Nat × VmmManager :=
  (m.baseAddr, { m with baseAddr := addSize m.baseAddr size })

def getHandle (host : Nat ↪ Nat) (m : VmmManager) : Option Nat × VmmManager :=
  if m.maxMemSize ≤ mulSize m.handles.length kDefaultMapSize then (none, m)
  else
    (some m.objects.next,
      { m with
        objects := m.objects.new {}
        handles := OrdSet.emplace host m.objects.next m.handles })

/-- The two range checks of `Map`. The low one is made only if there is a
mapping above. -/
def nearMapped (addr : Nat) (m : VmmManager) : Bool :=
  match m.mappedAddrs.upper? addr with
  | none => false
  | some (up, _) =>
      decide (up < addSize addr kDefaultMapSize) ||
        match m.mappedAddrs.floor? addr with
        | none => false
        | some (low, _) => decide (addr < addSize low kDefaultMapSize)

def map (handle addr : Nat) (m : VmmManager) : Option (Bool × VmmManager) :=
  -- check first
  if (m.mappedAddrs.find? addr).isSome then none
  else if m.nearMapped addr then none
  else
    some (true,
      { m with
        objects := m.objects.modify handle (MemHandle.map addr)
        mappedAddrs := m.mappedAddrs.emplace addr handle })

def unmap (addr : Nat) (m : VmmManager) : Option (Bool × VmmManager) := do
  let handle ← m.mappedAddrs.find? addr
  let object ← m.objects.get handle
  if object.addr ≠ addr then none
  else
    some (true,
      { m with
        objects := m.objects.modify handle MemHandle.unmap
        mappedAddrs := m.mappedAddrs.erase addr })

end VmmManager

/-- `AscendVmmAdapter` with the manager of its file. -/
structure VmmAdapter where
  physicalHandleSize : Nat := 0
  vmmMap : OrdMap Nat (Option Nat) := OrdMap.empty
  cachedHandleSets : List Nat := []
  manager : VmmManager := { maxMemSize := kMaxUsedMemSize }

namespace VmmAdapter

def getRoundUpAlignSize (inputSize : Nat) : Nat :=
  (inputSize + (kVmmAlignSize - 1)) % sizeBound / kVmmAlignSize * kVmmAlignSize

def getHandleSize (inputSize : Nat) : Option Nat :=
  if inputSize % kVmmAlignSize ≠ 0 then none else some (inputSize / kVmmAlignSize)

/-- `nullptr` both for no segment and for the segment at address `0`. -/
def findVmmSegment (addr : Nat) (a : VmmAdapter) : Nat :=
  match a.vmmMap.floor? addr with
  | none => 0
  | some (start, _) => start

/-- One entry of `MoveBackMappedHandle`. -/
def moveBackOne (host : Nat ↪ Nat) (a : VmmAdapter) (entry : Nat × Nat) : Option VmmAdapter := do
  let (ret, manager) ← a.manager.unmap entry.1
  let a := { a with manager }
  if !ret then some a
  else
    match a.vmmMap.find? entry.1 with
    | none => some a
    | some _ =>
        some { a with
          vmmMap := a.vmmMap.modify entry.1 fun _ => none
          cachedHandleSets := OrdSet.emplace host entry.2 a.cachedHandleSets }

def moveBackMappedHandle (host : Nat ↪ Nat) (mappedVmmHandle : OrdMap Nat Nat)
    (a : VmmAdapter) : Option VmmAdapter :=
  mappedVmmHandle.entries.foldlM (moveBackOne host) a

/-- A handle from the cache, else a new one. -/
def takeHandle (host : Nat ↪ Nat) (maxSize : Nat) (a : VmmAdapter) :
    Option Nat × VmmAdapter :=
  match a.cachedHandleSets with
  | handle :: cached => (some handle, { a with cachedHandleSets := cached })
  | [] =>
      if maxSize ≤ mulSize a.physicalHandleSize kVmmAlignSize then (none, a)
      else
        match a.manager.getHandle host with
        | (none, manager) => (none, { a with manager })
        | (some handle, manager) =>
            (some handle,
              { a with manager, physicalHandleSize := addSize a.physicalHandleSize 1 })

/-- The loop of `MmapDeviceMem`: `n` turns are left, `i` is the next one. `false`
is `return 0`. -/
def mmapLoop (host : Nat ↪ Nat) (maxSize vmmStartAddr : Nat) :
    Nat → Nat → List (Nat × Option Nat) → OrdMap Nat Nat → VmmAdapter →
    Option (Bool × VmmAdapter)
  | 0, _, _, _, a => some (true, a)
  | _ + 1, _, [], _, a => some (false, a)
  | n + 1, i, (key, value) :: iter, mapped, a =>
      let newAddr := addSize vmmStartAddr (mulSize i kVmmAlignSize)
      if key ≠ newAddr then some (false, a)
      else if value.isSome then mmapLoop host maxSize vmmStartAddr n (i + 1) iter mapped a
      else
        match a.takeHandle host maxSize with
        | (none, a) => do
            let a ← moveBackMappedHandle host mapped a
            some (false, a)
        | (some handle, a) => do
            let (ret, manager) ← a.manager.map handle newAddr
            let a := { a with manager }
            if !ret then do
              let a ← moveBackMappedHandle host mapped
                { a with cachedHandleSets := OrdSet.emplace host handle a.cachedHandleSets }
              some (false, a)
            else
              mmapLoop host maxSize vmmStartAddr n (i + 1) iter (mapped.insert key handle)
                { a with vmmMap := a.vmmMap.modify key fun _ => some handle }

def mmapDeviceMem (host : Nat ↪ Nat) (size addr maxSize : Nat) (a : VmmAdapter) :
    Option (Nat × VmmAdapter) := do
  let vmmStartAddr := a.findVmmSegment addr
  if vmmStartAddr = 0 then some (0, a)
  else do
    let startOffset := addr - vmmStartAddr
    let alignSize := getRoundUpAlignSize (addSize size startOffset)
    let handleSize ← getHandleSize alignSize
    let (ok, a) ← mmapLoop host maxSize vmmStartAddr handleSize 0
      (a.vmmMap.from_ vmmStartAddr) OrdMap.empty a
    some (if ok then size else 0, a)

/-- The segments of a new region, none of them mapped. -/
def reserveSegments (addr : Nat) : Nat → Nat → OrdMap Nat (Option Nat) →
    OrdMap Nat (Option Nat)
  | 0, _, m => m
  | n + 1, i, m =>
      reserveSegments addr n (i + 1)
        (m.insert (addSize addr (mulSize i kVmmAlignSize)) none)

/-- `(align_size, *addr)`. `MallocVirtualAddress` never answers `nullptr`. -/
def allocDeviceMem (size : Nat) (a : VmmAdapter) : Option ((Nat × Nat) × VmmAdapter) := do
  let alignSize := getRoundUpAlignSize size
  let (addr, manager) := a.manager.mallocVirtualAddress alignSize
  let handleSize ← getHandleSize alignSize
  some ((alignSize, addr),
    { a with manager, vmmMap := reserveSegments addr handleSize 0 a.vmmMap })

/-- The loop of `EagerFreeDeviceMem`. `none` in the first component is
`return 0` from inside. -/
def eagerFreeLoop (host : Nat ↪ Nat) (freeEndAddr : Nat) :
    List (Nat × Option Nat) → Nat → Nat → VmmAdapter → Option (Option Nat × VmmAdapter)
  | [], vmmStartAddr, retSize, a =>
      if freeEndAddr < addSize vmmStartAddr kVmmAlignSize then some (some retSize, a)
      else some (none, a)
  | (key, value) :: iter, vmmStartAddr, retSize, a =>
      let vmmEndAddr := addSize vmmStartAddr kVmmAlignSize
      if freeEndAddr < vmmEndAddr then some (some retSize, a)
      else if key ≠ vmmStartAddr then some (none, a)
      else
        match value with
        | none => eagerFreeLoop host freeEndAddr iter vmmEndAddr retSize a
        | some handle => do
            let (ret, manager) ← a.manager.unmap vmmStartAddr
            let a := { a with manager }
            if !ret then some (none, a)
            else
              eagerFreeLoop host freeEndAddr iter vmmEndAddr (addSize retSize kVmmAlignSize)
                { a with
                  cachedHandleSets := OrdSet.emplace host handle a.cachedHandleSets
                  vmmMap := a.vmmMap.modify key fun _ => none }

def eagerFreeDeviceMem (host : Nat ↪ Nat) (addr size : Nat) (a : VmmAdapter) :
    Option (Nat × VmmAdapter) :=
  match a.vmmMap.from_ addr with
  | [] => some (0, a)
  | (vmmStartAddr, value) :: iter => do
      let (r, a) ← eagerFreeLoop host (addSize addr size) ((vmmStartAddr, value) :: iter)
        vmmStartAddr 0 a
      some (r.getD 0, a)

end VmmAdapter

end Ccbase.Memory
