import Ccbase.DynamicMem.Blocks
import Ccbase.Lib.MultiMap
import Ccbase.Lib.OrdMap
import Ccbase.Lib.SizeT

/-!
# `DynamicMemPoolBestFit`

Two pools of blocks, each with three indexes: the blocks in the order of their
addresses, the bufs of a block by address, and for every stream the idle bufs by
size. A size is entered when a buf becomes idle and is not looked up again in
the buf, so an entry is a size and the buf, which is named by its address.

`IsEnableEagerFree` is false for this class, so `is_trigger_eager_free_` is never
set and the routines of eager free are not part of the model. The two tests that
decide if a buf is split are parameters; the class has `isSplit` in both places.

`none` stands for what the code does not survive: a pointer or an iterator that
is not there, an exception of `at`, or a loop that does not end.
-/

namespace Ccbase.DynamicMem

open Ccbase.Lib

inductive DynamicMemBufStatus where
  | idle
  | used
  | eagerFree
  deriving DecidableEq, Repr

structure DynamicMemBuf where
  deviceAddr : Nat
  status : DynamicMemBufStatus
  size : Nat
  deriving DecidableEq, Repr

/-- The idle bufs of one stream: sizes and addresses. -/
abbrev SizeMapMemBuf := MultiMap Nat Nat

/-- `mps_`. -/
structure DeviceState where
  totalMemSize : Nat := 0
  totalUsedMemSize : Nat := 0
  totalIdleMemSize : Nat := 0
  totalEagerFreeMemSize : Nat := 0
  usedMemPeakSize : Nat := 0
  deriving DecidableEq, Repr

def kDynamicMemAlignSize : Nat := 512

def kDynamicMemAllocUnitSize : Nat := 1073741824

def kMinimumAllocMem : Nat := 10485760

def kDefaultStreamIndex : Nat := 0

/-- The largest `uint32_t`. -/
def uint32Max : Nat := 4294967295

structure MemStatusManager where
  unitSize : Nat := kDynamicMemAllocUnitSize
  mps : DeviceState := {}
  memBlockList : List (DynamicMemBlock DynamicMemBuf) := []
  idleMemBufs : OrdMap Nat SizeMapMemBuf := .empty
  eagerFreeMemBufs : OrdMap Nat SizeMapMemBuf := .empty

/-- The two tests, given the size that is asked for and the size of the buf: in
`FindMemBufInSpecifiedMng` and in `CreateMemBlockAndMemBuf`. -/
structure SplitTests where
  find : Nat → Nat → Bool
  create : Nat → Nat → Bool

/-- `DynamicMemPoolBestFit::IsSplit`. -/
def isSplit (tensorSize memBufSize : Nat) : Bool :=
  decide (kDynamicMemAlignSize ≤ subSize memBufSize tensorSize)

def SplitTests.plain : SplitTests := ⟨isSplit, isSplit⟩

/-- `AlignMemorySize`. -/
def alignMemorySize (size : Nat) : Nat :=
  if size = 0 then kDynamicMemAlignSize
  else
    mulSize (subSize (addSize size kDynamicMemAlignSize) 1 / kDynamicMemAlignSize)
      kDynamicMemAlignSize

/-! ## The indexes by size -/

/-- `GetOrCreateSizeMapMemBuf`. -/
def getOrCreateSizeMapMemBuf (container : OrdMap Nat SizeMapMemBuf) (streamId : Nat) :
    SizeMapMemBuf × OrdMap Nat SizeMapMemBuf :=
  match container.find? streamId with
  | some m => (m, container)
  | none => (.empty, container.emplace streamId .empty)

def addMemBuf (container : OrdMap Nat SizeMapMemBuf) (buf : DynamicMemBuf) (streamId : Nat) :
    OrdMap Nat SizeMapMemBuf :=
  match container.find? streamId with
  | some m => container.insert streamId (m.emplace buf.size buf.deviceAddr)
  | none => container.emplace streamId (MultiMap.empty.emplace buf.size buf.deviceAddr)

/-- `RemoveDeviceMem`; `at` throws on a stream that is not there. -/
def removeDeviceMem (container : OrdMap Nat SizeMapMemBuf) (size deviceAddr streamId : Nat) :
    Option (OrdMap Nat SizeMapMemBuf) :=
  (container.find? streamId).map fun m =>
    container.insert streamId (m.eraseFirst fun e => decide (e = (size, deviceAddr)))

namespace DeviceState

/-- A buf of `n` bytes goes into use. -/
def addUsed (n : Nat) (s : DeviceState) : DeviceState :=
  let used := addSize s.totalUsedMemSize n
  { s with
    totalUsedMemSize := used
    usedMemPeakSize := if used > s.usedMemPeakSize then used else s.usedMemPeakSize }

def subUsed (n : Nat) (s : DeviceState) : DeviceState :=
  { s with totalUsedMemSize := subSize s.totalUsedMemSize n }

def addIdle (n : Nat) (s : DeviceState) : DeviceState :=
  { s with totalIdleMemSize := addSize s.totalIdleMemSize n }

def subIdle (n : Nat) (s : DeviceState) : DeviceState :=
  { s with totalIdleMemSize := subSize s.totalIdleMemSize n }

def addTotal (n : Nat) (s : DeviceState) : DeviceState :=
  { s with totalMemSize := addSize s.totalMemSize n }

end DeviceState

/-! ## One pool -/

namespace MemStatusManager

def readBuf (p : Nat) (m : MemStatusManager) : Option DynamicMemBuf :=
  DynamicMem.readBuf DynamicMemBuf.deviceAddr p m.memBlockList

def writeBuf (p : Nat) (f : DynamicMemBuf → DynamicMemBuf) (m : MemStatusManager) :
    MemStatusManager :=
  { m with memBlockList := DynamicMem.writeBuf DynamicMemBuf.deviceAddr p f m.memBlockList }

/-- `SplitMemBuf`: the rest of the buf at `p` becomes a buf of its own. -/
def splitMemBuf (size p : Nat) (m : MemStatusManager) : Option MemStatusManager := do
  let memBlock ← findMemBlock p m.memBlockList
  let memBuf ← m.readBuf p
  let newMemBuf : DynamicMemBuf :=
    { deviceAddr := addSize memBuf.deviceAddr size, status := memBuf.status
      size := subSize memBuf.size size }
  let m := m.writeBuf p fun b => { b with size := size }
  let m :=
    { m with
      memBlockList := writeBlock memBlock.deviceAddrBase
        (fun b => b.setBufs (emplaceBuf DynamicMemBuf.deviceAddr newMemBuf b.blockAllMemBufMap))
        m.memBlockList }
  match newMemBuf.status with
  | .idle => some { m with idleMemBufs := addMemBuf m.idleMemBufs newMemBuf memBlock.streamId }
  | .eagerFree =>
      some { m with eagerFreeMemBufs := addMemBuf m.eagerFreeMemBufs newMemBuf memBlock.streamId }
  | .used => some m

/-- The buf at `p` is split if the test says so. -/
def divideMemBuf (split : Nat → Nat → Bool) (size memBufSize p : Nat) (m : MemStatusManager) :
    Option MemStatusManager :=
  if split size memBufSize then m.splitMemBuf size p else some m

/-- `FindMemBufInSpecifiedMng` for idle bufs: the address, if there is one. -/
def findMemBufInSpecifiedMng (split : Nat → Nat → Bool) (size streamId : Nat)
    (m : MemStatusManager) : Option (Option Nat × MemStatusManager) :=
  let (memBufMap, container) := getOrCreateSizeMapMemBuf m.idleMemBufs streamId
  let m := { m with idleMemBufs := container }
  match memBufMap.lowerBound size with
  | none => some (none, m)
  | some iter => do
      let memBuf ← m.readBuf iter.2
      let m :=
        { m with idleMemBufs := m.idleMemBufs.insert streamId (memBufMap.eraseLowerBound size) }
      let m ← m.divideMemBuf split size memBuf.size iter.2
      let m := m.writeBuf iter.2 fun b => { b with status := .used }
      let memBuf ← m.readBuf iter.2
      some (some memBuf.deviceAddr,
        { m with mps := (m.mps.addUsed memBuf.size).subIdle memBuf.size })

/-- `CreateMemBlockAndMemBuf`, in the pool that the block belongs to. -/
def createMemBlockAndMemBuf (split : Nat → Nat → Bool) (size sourceAddr sourceSize streamId : Nat)
    (m : MemStatusManager) : Option (Nat × MemStatusManager) := do
  let memBlock : DynamicMemBlock DynamicMemBuf :=
    { deviceAddrBase := sourceAddr, memBlockSize := sourceSize, streamId := streamId
      blockAllMemBufMap := [{ deviceAddr := sourceAddr, status := .idle, size := sourceSize }] }
  let m := { m with memBlockList := insertMemBlock memBlock m.memBlockList }
  let m ← m.divideMemBuf split size sourceSize sourceAddr
  let m := m.writeBuf sourceAddr fun b => { b with status := .used }
  let memBuf ← m.readBuf sourceAddr
  some (memBuf.deviceAddr, { m with mps := (m.mps.addTotal sourceSize).addUsed memBuf.size })

/-- The part of `CombineMemBuf` that joins the buf with the next one: the buf,
what is behind it, and the index. -/
def combineNext (streamId : Nat) (memBuf : DynamicMemBuf) (after : List DynamicMemBuf)
    (container : OrdMap Nat SizeMapMemBuf) :
    Option (DynamicMemBuf × List DynamicMemBuf × OrdMap Nat SizeMapMemBuf) :=
  match after with
  | [] => some (memBuf, [], container)
  | next :: rest =>
      if next.status = .idle then
        (removeDeviceMem container next.size next.deviceAddr streamId).map fun container =>
          ({ memBuf with size := addSize memBuf.size next.size }, rest, container)
      else some (memBuf, next :: rest, container)

/-- The part of `CombineMemBuf` that joins the buf with the one before it: the
buf that is put back, what is before it, and the index. -/
def combinePrev (streamId : Nat) (before : List DynamicMemBuf) (memBuf : DynamicMemBuf)
    (container : OrdMap Nat SizeMapMemBuf) :
    Option (List DynamicMemBuf × DynamicMemBuf × OrdMap Nat SizeMapMemBuf) :=
  match before.getLast? with
  | none => some (before, memBuf, container)
  | some prev =>
      if prev.status = .idle then
        (removeDeviceMem container prev.size prev.deviceAddr streamId).map fun container =>
          (before.dropLast, { prev with size := addSize prev.size memBuf.size }, container)
      else some (before, memBuf, container)

/-- `CombineMemBuf` from `kMemBufUsed` to `kMemBufIdle` at an iterator of a
block. -/
def combineMemBuf (memBlock : DynamicMemBlock DynamicMemBuf)
    (iter : List DynamicMemBuf × DynamicMemBuf × List DynamicMemBuf) (m : MemStatusManager) :
    Option MemStatusManager := do
  let memBuf := { iter.2.1 with status := .idle }
  let mps := m.mps.subUsed memBuf.size
  let (memBuf, after, container) ← combineNext memBlock.streamId memBuf iter.2.2 m.idleMemBufs
  let (before, memBuf, container) ← combinePrev memBlock.streamId iter.1 memBuf container
  some
    { m with
      memBlockList := writeBlock memBlock.deviceAddrBase
        (fun b => b.setBufs (before ++ memBuf :: after)) m.memBlockList
      idleMemBufs := addMemBuf container memBuf memBlock.streamId
      mps := mps.addIdle memBuf.size }

end MemStatusManager

/-! ## The two pools -/

/-- `initRecycleMemory` is the static variable of `AllocTensorMem`. -/
structure DynamicMemPoolBestFit where
  persistentMem : MemStatusManager := {}
  commonMem : MemStatusManager := {}
  configUnitSize : Nat := kDynamicMemAllocUnitSize
  initRecycleMemory : Bool := false

/-- What the device answers during one allocation: `free_mem_size` and, if it is
asked for a block, the address and the size it returns. -/
structure DeviceAnswer where
  freeMemSize : Nat
  addr : Nat
  size : Nat
  deriving DecidableEq, Repr

/-- The loop of `CalMemBlockAllocSize`. It doubles a `size_t`, so after as many
rounds as that has bits the value is zero and stays so. -/
def growAllocSize (size : Nat) : Nat → Nat → Option Nat
  | 0, _ => none
  | rounds + 1, allocMemSize =>
      if allocMemSize < size then growAllocSize size rounds (mulSize allocMemSize 2)
      else some allocMemSize

def calMemBlockAllocSize (unitSize freeMemSize size : Nat) : Option Nat :=
  if freeMemSize < size then some 0
  else if freeMemSize < kMinimumAllocMem then some 0
  else (growAllocSize size 65 unitSize).map fun allocMemSize => min allocMemSize freeMemSize

namespace DynamicMemPoolBestFit

/-- `SetMemAllocUintSize` on a new pool. -/
def fresh (commonSize persistSize : Nat) : DynamicMemPoolBestFit where
  persistentMem := { unitSize := persistSize }
  commonMem := { unitSize := commonSize }
  configUnitSize := commonSize

def mng (persistent : Bool) (p : DynamicMemPoolBestFit) : MemStatusManager :=
  if persistent then p.persistentMem else p.commonMem

def setMng (persistent : Bool) (m : MemStatusManager) (p : DynamicMemPoolBestFit) :
    DynamicMemPoolBestFit :=
  if persistent then { p with persistentMem := m } else { p with commonMem := m }

variable (t : SplitTests)

def findIn (size : Nat) (persistent : Bool) (streamId : Nat) (p : DynamicMemPoolBestFit) :
    Option (Option Nat × DynamicMemPoolBestFit) :=
  ((p.mng persistent).findMemBufInSpecifiedMng t.find size streamId).map fun r =>
    (r.1, p.setMng persistent r.2)

/-- `FindAvailableMemBuf`, which is `FindMemBufByStatus` for idle bufs. -/
def findAvailableMemBuf (size : Nat) (fromPersistentMem : Bool) (streamId : Nat)
    (p : DynamicMemPoolBestFit) : Option (Option Nat × DynamicMemPoolBestFit) := do
  let (deviceAddr, p) ← p.findIn t size fromPersistentMem streamId
  if deviceAddr = none ∧ fromPersistentMem = true ∧ p.persistentMem.memBlockList ≠ [] then
    p.findIn t size (!fromPersistentMem) streamId
  else some (deviceAddr, p)

def addMemBlockAndMemBuf (size : Nat) (fromPersistentMem needRecycle : Bool) (streamId : Nat)
    (d : DeviceAnswer) (p : DynamicMemPoolBestFit) :
    Option (Option Nat × DynamicMemPoolBestFit) := do
  let fromPersistentMem :=
    if fromPersistentMem = true ∧ needRecycle = false ∧ p.persistentMem.memBlockList ≠ [] then
      false
    else fromPersistentMem
  let allocMemSize ← calMemBlockAllocSize (p.mng fromPersistentMem).unitSize d.freeMemSize size
  if allocMemSize = 0 then p.findAvailableMemBuf t size (!fromPersistentMem) streamId
  else if d.size < size then some (none, p)
  else
    let p := { p with commonMem := { p.commonMem with unitSize := p.configUnitSize } }
    let (deviceAddr, m) ←
      (p.mng fromPersistentMem).createMemBlockAndMemBuf t.create size d.addr d.size streamId
    some (some deviceAddr, p.setMng fromPersistentMem m)

def allocTensorMem (size : Nat) (fromPersistentMem needRecycle : Bool) (streamId : Nat)
    (d : DeviceAnswer) (p : DynamicMemPoolBestFit) :
    Option (Option Nat × DynamicMemPoolBestFit) := do
  let streamId := if streamId = uint32Max then kDefaultStreamIndex else streamId
  let alignSize := alignMemorySize size
  let (deviceAddr, p) ← p.findAvailableMemBuf t alignSize fromPersistentMem streamId
  let first := needRecycle && !p.initRecycleMemory
  let p := if first then { p with initRecycleMemory := true } else p
  let deviceAddr := if first then none else deviceAddr
  match deviceAddr with
  | some a => some (some a, p)
  | none => p.addMemBlockAndMemBuf t alignSize fromPersistentMem needRecycle streamId d

/-- The iterator to the buf at an address, in a pool. -/
def findStrict (deviceAddr : Nat) (m : MemStatusManager) :
    Option (DynamicMemBlock DynamicMemBuf × List DynamicMemBuf × DynamicMemBuf ×
      List DynamicMemBuf) := do
  let memBlock ← findMemBlock deviceAddr m.memBlockList
  let iter ← findBuf DynamicMemBuf.deviceAddr deviceAddr memBlock.blockAllMemBufMap
  some (memBlock, iter)

/-- `FindByStrictAddr`: first in the common pool, then in the persistent one. -/
def findByStrictAddr (deviceAddr : Nat) (p : DynamicMemPoolBestFit) :
    Option (Bool × DynamicMemBlock DynamicMemBuf × List DynamicMemBuf × DynamicMemBuf ×
      List DynamicMemBuf) :=
  match findStrict deviceAddr p.commonMem with
  | some r => some (false, r)
  | none => (findStrict deviceAddr p.persistentMem).map fun r => (true, r)

/-- An address that is nowhere is left alone. -/
def freeTensorMem (deviceAddr : Nat) (p : DynamicMemPoolBestFit) :
    Option DynamicMemPoolBestFit :=
  match p.findByStrictAddr deviceAddr with
  | none => some p
  | some (persistent, memBlock, iter) =>
      ((p.mng persistent).combineMemBuf memBlock iter).map fun m => p.setMng persistent m

end DynamicMemPoolBestFit

end Ccbase.DynamicMem
