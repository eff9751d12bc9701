import Ccbase.DynamicMem.Continuous
import Ccbase.Lib.Heap
import Ccbase.Lib.Outcome

/-!
# `DynamicMemPoolBestFitOpt`

The pool with vectors in place of the maps by stream: `mem_blocks_`,
`idle_mem_bufs_` and `eager_free_mem_bufs_` have 128 elements each in a new pool,
and are used with a stream id as the subscript, which is never checked. Bufs and
blocks are objects on a heap; an index has pointers to bufs, and a buf has the
pointer to its block.

A call that goes wrong ends in a fault. `Fault.index` is a subscript past the end
of one of the three vectors; `Fault.other` is everything else that the code does
not survive: a pointer or an iterator that is not there, or a loop that does not
end.
-/

namespace Ccbase.DynamicMem

open Ccbase.Lib

namespace DeviceState

def addEagerFree (n : Nat) (s : DeviceState) : DeviceState :=
  { s with totalEagerFreeMemSize := addSize s.totalEagerFreeMemSize n }

def subEagerFree (n : Nat) (s : DeviceState) : DeviceState :=
  { s with totalEagerFreeMemSize := subSize s.totalEagerFreeMemSize n }

/-- `FindMemBufInSpecifiedMng` puts a buf of a status into use. -/
def take (status : DynamicMemBufStatus) (n : Nat) (s : DeviceState) : DeviceState :=
  match status with
  | .idle => (s.addUsed n).subIdle n
  | .eagerFree => (s.addUsed n).subEagerFree n
  | .used => s.addUsed n

/-- `CombineMemBuf` takes a buf out of its status. -/
def leave (status : DynamicMemBufStatus) (n : Nat) (s : DeviceState) : DeviceState :=
  match status with
  | .used => s.subUsed n
  | .idle => s.subIdle n
  | .eagerFree => s

/-- `CombineMemBufForward` counts a buf under its new status. -/
def enter (status : DynamicMemBufStatus) (n : Nat) (s : DeviceState) : DeviceState :=
  match status with
  | .idle => s.addIdle n
  | .eagerFree => s.addEagerFree n
  | .used => s

end DeviceState

namespace Opt

inductive Fault where
  | index
  | other
  deriving DecidableEq, Repr

/-- `v[i]`. -/
def subscript {α : Type} (v : List α) (i : Nat) : Except Fault α :=
  match v[i]? with
  | some x => .ok x
  | none => .error .index

def nullptr : Nat := 0

/-- `min_tensor_size_`. -/
def minTensorSize : Nat := 1024

structure DynamicMemBuf where
  deviceAddr : Nat
  memBlockPtr : Nat
  status : DynamicMemBufStatus
  size : Nat
  deriving DecidableEq, Repr

structure DynamicMemBlock where
  deviceAddrBase : Nat
  memBlockSize : Nat
  streamId : Nat
  blockAllMemBufMap : OrdMap Nat Nat := .empty

structure MemStatusManager where
  unitSize : Nat := kDynamicMemAllocUnitSize
  mps : DeviceState := {}
  memBlockList : List Nat := []
  memBlocks : List (List Nat) := List.replicate 128 []
  idleMemBufs : List SizeMapMemBuf := List.replicate 128 .empty
  eagerFreeMemBufs : List SizeMapMemBuf := List.replicate 128 .empty

namespace MemStatusManager

/-- The vector that a buf of a status is looked for in. -/
def container (status : DynamicMemBufStatus) (m : MemStatusManager) : List SizeMapMemBuf :=
  if status = .idle then m.idleMemBufs else m.eagerFreeMemBufs

def setContainer (status : DynamicMemBufStatus) (v : List SizeMapMemBuf)
    (m : MemStatusManager) : MemStatusManager :=
  if status = .idle then { m with idleMemBufs := v } else { m with eagerFreeMemBufs := v }

def clear (m : MemStatusManager) : MemStatusManager :=
  { m with memBlockList := [], memBlocks := [], idleMemBufs := [], eagerFreeMemBufs := [] }

end MemStatusManager

/-- `initRecycleMemory` is the static variable of `AllocTensorMem`. -/
structure DynamicMemPoolBestFitOpt where
  bufs : Heap DynamicMemBuf := .empty
  blocks : Heap DynamicMemBlock := .empty
  persistentMem : MemStatusManager := {}
  commonMem : MemStatusManager := {}
  configUnitSize : Nat := kDynamicMemAllocUnitSize
  isTriggerEagerFree : Bool := false
  initRecycleMemory : Bool := false

/-- What the virtual functions answer during one allocation: `free_mem_size`, the block
of `AllocDeviceMem`, `total_mem_size` and its product with the threshold factor,
`IsEnableEagerFree`, and the block of `AllocDeviceMemByEagerFree`. -/
structure DeviceAnswer where
  freeMemSize : Nat
  addr : Nat
  size : Nat
  totalMemSize : Nat
  threshold : Nat
  isEnableEagerFree : Bool
  eagerAddr : Nat
  eagerSize : Nat
  deriving DecidableEq, Repr

/-- `AlignMemorySize`. -/
def alignMemorySize (size : Nat) : Nat :=
  if size ≠ 0 then
    subSize (addSize size kDynamicMemAlignSize) 1 &&& (sizeBound - 1 - (kDynamicMemAlignSize - 1))
  else kDynamicMemAlignSize

def isSplit (tensorSize memBufSize : Nat) : Bool :=
  decide (minTensorSize ≤ subSize memBufSize tensorSize)

namespace DynamicMemPoolBestFitOpt

/-- `SetMemAllocUintSize` on a new pool, with either value of the static flag. -/
def fresh (recycled : Bool) (commonSize persistSize : Nat) : DynamicMemPoolBestFitOpt where
  persistentMem := { unitSize := persistSize }
  commonMem := { unitSize := commonSize }
  configUnitSize := commonSize
  initRecycleMemory := recycled

def mng (persistent : Bool) (s : DynamicMemPoolBestFitOpt) : MemStatusManager :=
  if persistent then s.persistentMem else s.commonMem

def setMng (persistent : Bool) (m : MemStatusManager) (s : DynamicMemPoolBestFitOpt) :
    DynamicMemPoolBestFitOpt :=
  if persistent then { s with persistentMem := m } else { s with commonMem := m }

/-! ## Reads and writes -/

def readBuf (p : Nat) (s : DynamicMemPoolBestFitOpt) : Except Fault DynamicMemBuf :=
  match s.bufs.get p with
  | some b => .ok b
  | none => .error .other

def readBlock (q : Nat) (s : DynamicMemPoolBestFitOpt) : Except Fault DynamicMemBlock :=
  match s.blocks.get q with
  | some b => .ok b
  | none => .error .other

def writeBuf (p : Nat) (f : DynamicMemBuf → DynamicMemBuf) (s : DynamicMemPoolBestFitOpt) :
    DynamicMemPoolBestFitOpt :=
  { s with bufs := s.bufs.modify p f }

/-- `new DynamicMemBuf`, and its entry in the map of its block. -/
def newMemBuf (buf : DynamicMemBuf) (s : DynamicMemPoolBestFitOpt) : DynamicMemPoolBestFitOpt :=
  { s with
    bufs := s.bufs.new buf
    blocks := s.blocks.modify buf.memBlockPtr fun b =>
      { b with blockAllMemBufMap := b.blockAllMemBufMap.emplace buf.deviceAddr s.bufs.next } }

/-- The entry of a buf in the map of its block is erased, and the buf is deleted. -/
def deleteMemBuf (q deviceAddr p : Nat) (s : DynamicMemPoolBestFitOpt) :
    DynamicMemPoolBestFitOpt :=
  { s with
    bufs := s.bufs.delete p
    blocks := s.blocks.modify q fun b =>
      { b with blockAllMemBufMap := b.blockAllMemBufMap.erase deviceAddr } }

/-- A write to the element of a stream in the vector of a status. -/
def setSizeMap (persistent : Bool) (status : DynamicMemBufStatus) (streamId : Nat)
    (map : SizeMapMemBuf) (s : DynamicMemPoolBestFitOpt) : DynamicMemPoolBestFitOpt :=
  let m := s.mng persistent
  s.setMng persistent (m.setContainer status ((m.container status).set streamId map))

def setMps (persistent : Bool) (f : DeviceState → DeviceState) (s : DynamicMemPoolBestFitOpt) :
    DynamicMemPoolBestFitOpt :=
  s.setMng persistent { s.mng persistent with mps := f (s.mng persistent).mps }

/-- `emplace` in the vector of a status; there is none for `kMemBufUsed`. -/
def addMemBuf (persistent : Bool) (status : DynamicMemBufStatus) (streamId size p : Nat)
    (s : DynamicMemPoolBestFitOpt) : Except Fault DynamicMemPoolBestFitOpt :=
  if status = .used then .ok s
  else do
    let memBufMap ← subscript ((s.mng persistent).container status) streamId
    .ok (s.setSizeMap persistent status streamId (memBufMap.emplace size p))

/-- The entry that `RemoveDeviceMem` stops at: of the size, and a buf at the address. A
pointer to a buf that is not there is followed too. -/
def stopsAt (size deviceAddr : Nat) (s : DynamicMemPoolBestFitOpt) (e : Nat × Nat) : Bool :=
  decide (e.1 = size) &&
    match s.bufs.get e.2 with
    | some b => decide (b.deviceAddr = deviceAddr)
    | none => true

/-- `EraseMemBufByStatus` and `RemoveDeviceMem`. -/
def eraseMemBufByStatus (size deviceAddr : Nat) (persistent : Bool)
    (targetStatus : DynamicMemBufStatus) (streamId : Nat) (s : DynamicMemPoolBestFitOpt) :
    Except Fault DynamicMemPoolBestFitOpt := do
  let memBufMap ← subscript ((s.mng persistent).container targetStatus) streamId
  match memBufMap.entries.find? (s.stopsAt size deviceAddr) with
  | none => .ok s
  | some e => do
      let _ ← s.readBuf e.2
      .ok (s.setSizeMap persistent targetStatus streamId
        (memBufMap.eraseFirst (s.stopsAt size deviceAddr)))

/-! ## The blocks -/

def blockAddr (s : DynamicMemPoolBestFitOpt) (q : Nat) : Nat :=
  match s.blocks.get q with
  | some b => b.deviceAddrBase
  | none => nullptr

/-- The block before `upper_bound(device_addr)`. -/
def findMemBlock (deviceAddr : Nat) (persistent : Bool) (s : DynamicMemPoolBestFitOpt) :
    Option Nat :=
  ((s.mng persistent).memBlockList.takeWhile fun q =>
    !decide (deviceAddr < s.blockAddr q)).getLast?

/-- `AddMemBlock` for a new block. -/
def addMemBlock (memBlock : DynamicMemBlock) (persistent : Bool) (streamId : Nat)
    (s : DynamicMemPoolBestFitOpt) : Except Fault DynamicMemPoolBestFitOpt := do
  let m := s.mng persistent
  let q := s.blocks.next
  let blocks ← subscript m.memBlocks streamId
  let before := fun q => !decide (memBlock.deviceAddrBase < s.blockAddr q)
  .ok
    { s.setMng persistent
        { m with
          memBlocks := m.memBlocks.set streamId (blocks ++ [q])
          memBlockList :=
            m.memBlockList.takeWhile before ++ q :: m.memBlockList.dropWhile before } with
      blocks := s.blocks.new memBlock }

/-! ## Allocation -/

def splitMemBuf (size p : Nat) (persistent : Bool) (streamId : Nat)
    (s : DynamicMemPoolBestFitOpt) : Except Fault DynamicMemPoolBestFitOpt := do
  let memBuf ← s.readBuf p
  let _ ← s.readBlock memBuf.memBlockPtr
  let newMemBuf : DynamicMemBuf :=
    { deviceAddr := addSize memBuf.deviceAddr size, memBlockPtr := memBuf.memBlockPtr
      status := memBuf.status, size := subSize memBuf.size size }
  let q := s.bufs.next
  ((s.writeBuf p fun b => { b with size := size }).newMemBuf newMemBuf).addMemBuf persistent
    newMemBuf.status streamId newMemBuf.size q

/-- The buf at `p` is split if a test says so. -/
def divideMemBuf (split : Bool) (size p : Nat) (persistent : Bool) (streamId : Nat)
    (s : DynamicMemPoolBestFitOpt) : Except Fault DynamicMemPoolBestFitOpt :=
  if split then s.splitMemBuf size p persistent streamId else .ok s

/-- `FindMemBufInSpecifiedMng`. -/
def findMemBufInSpecifiedMng (size : Nat) (persistent : Bool)
    (targetStatus : DynamicMemBufStatus) (streamId : Nat) (s : DynamicMemPoolBestFitOpt) :
    Except Fault (Nat × DynamicMemPoolBestFitOpt) := do
  let memBufMap ← subscript ((s.mng persistent).container targetStatus) streamId
  match memBufMap.lowerBound size with
  | none => .ok (nullptr, s)
  | some iter => do
      let memBuf ← s.readBuf iter.2
      let s := s.setSizeMap persistent targetStatus streamId (memBufMap.eraseLowerBound size)
      let s ← s.divideMemBuf (isSplit size memBuf.size) size iter.2 persistent streamId
      let s := s.writeBuf iter.2 fun b => { b with status := .used }
      let memBuf ← s.readBuf iter.2
      .ok (memBuf.deviceAddr, s.setMps persistent (DeviceState.take targetStatus memBuf.size))

/-- `FindMemBufByStatus`: another pool is tried only for persistent memory. -/
def findMemBufByStatus (size : Nat) (fromPersistentMem : Bool)
    (targetStatus : DynamicMemBufStatus) (streamId : Nat) (s : DynamicMemPoolBestFitOpt) :
    Except Fault (Nat × DynamicMemPoolBestFitOpt) := do
  let (addr, s) ← s.findMemBufInSpecifiedMng size fromPersistentMem targetStatus streamId
  if addr = nullptr ∧ fromPersistentMem = true ∧ s.persistentMem.memBlockList ≠ [] then
    s.findMemBufInSpecifiedMng size (!fromPersistentMem) targetStatus streamId
  else .ok (addr, s)

def totalUsedMemStatistics (s : DynamicMemPoolBestFitOpt) : Nat :=
  addSize s.commonMem.mps.totalUsedMemSize s.persistentMem.mps.totalUsedMemSize

def totalIdleMemStatistics (s : DynamicMemPoolBestFitOpt) : Nat :=
  addSize s.commonMem.mps.totalIdleMemSize s.persistentMem.mps.totalIdleMemSize

def findAvailableMemBuf (size : Nat) (fromPersistentMem : Bool) (streamId : Nat)
    (d : DeviceAnswer) (s : DynamicMemPoolBestFitOpt) :
    Except Fault (Nat × DynamicMemPoolBestFitOpt) := do
  let (addr, s) ← s.findMemBufByStatus size fromPersistentMem .idle streamId
  if addr = nullptr ∧ s.isTriggerEagerFree = true ∧
      addSize (addSize s.totalUsedMemStatistics s.totalIdleMemStatistics) size ≤ d.threshold then
    s.findMemBufByStatus size fromPersistentMem .eagerFree streamId
  else .ok (addr, s)

def createMemBlockAndMemBuf (size : Nat) (fromPersistentMem : Bool) (sourceAddr sourceSize : Nat)
    (memBufStatus : DynamicMemBufStatus) (streamId : Nat) (s : DynamicMemPoolBestFitOpt) :
    Except Fault (Nat × DynamicMemPoolBestFitOpt) := do
  let q := s.blocks.next
  let s ← s.addMemBlock
    { deviceAddrBase := sourceAddr, memBlockSize := sourceSize, streamId := streamId }
    fromPersistentMem streamId
  let p := s.bufs.next
  let s := s.newMemBuf
    { deviceAddr := sourceAddr, memBlockPtr := q, status := memBufStatus, size := sourceSize }
  let s ← s.divideMemBuf (decide (mulSize size 2 ≤ sourceSize)) size p fromPersistentMem streamId
  let s := s.writeBuf p fun b => { b with status := .used }
  let memBuf ← s.readBuf p
  .ok (memBuf.deviceAddr, s.setMps fromPersistentMem fun mps =>
    (mps.addTotal sourceSize).addUsed memBuf.size)

/-! ## Free -/

/-- Where a buf is: the pool, its block and the buf. -/
structure Place where
  persistent : Bool
  memBlock : Nat
  memBuf : Nat
  deriving DecidableEq, Repr

/-- The search of `CombineMemBuf` in one of the pools. -/
def findIn (deviceAddr : Nat) (persistent : Bool) (s : DynamicMemPoolBestFitOpt) :
    Option Place := do
  let q ← s.findMemBlock deviceAddr persistent
  let memBlock ← s.blocks.get q
  let p ← memBlock.blockAllMemBufMap.find? deviceAddr
  some ⟨persistent, q, p⟩

/-- The search of `CombineMemBuf`: first in the common pool, then in the persistent one. -/
def findByAddr (deviceAddr : Nat) (s : DynamicMemPoolBestFitOpt) : Option Place :=
  (s.findIn deviceAddr false).or (s.findIn deviceAddr true)

/-- The part of `CombineMemBuf` that joins the buf with the next one. -/
def combineNext (deviceAddr : Nat) (x : Place) (targetStatus : DynamicMemBufStatus)
    (s : DynamicMemPoolBestFitOpt) : Except Fault DynamicMemPoolBestFitOpt := do
  let memBlock ← s.readBlock x.memBlock
  match memBlock.blockAllMemBufMap.upper? deviceAddr with
  | none => .ok s
  | some nextIter => do
      let nextMemBuf ← s.readBuf nextIter.2
      if nextMemBuf.status = targetStatus then do
        let s := s.writeBuf x.memBuf fun b => { b with size := addSize b.size nextMemBuf.size }
        let s ← s.eraseMemBufByStatus nextMemBuf.size nextMemBuf.deviceAddr x.persistent
          targetStatus memBlock.streamId
        .ok (s.deleteMemBuf x.memBlock nextIter.1 nextIter.2)
      else .ok s

/-- The buf is entered into the vector of its new status, and counted there. -/
def putBack (p : Nat) (persistent : Bool) (targetStatus : DynamicMemBufStatus) (streamId : Nat)
    (s : DynamicMemPoolBestFitOpt) : Except Fault DynamicMemPoolBestFitOpt := do
  let memBuf ← s.readBuf p
  let s ← s.addMemBuf persistent targetStatus streamId memBuf.size p
  .ok (s.setMps persistent (DeviceState.enter targetStatus memBuf.size))

def combineMemBufForward (deviceAddr : Nat) (x : Place) (targetStatus : DynamicMemBufStatus)
    (s : DynamicMemPoolBestFitOpt) : Except Fault DynamicMemPoolBestFitOpt := do
  let memBlock ← s.readBlock x.memBlock
  match memBlock.blockAllMemBufMap.below? deviceAddr with
  | none => s.putBack x.memBuf x.persistent targetStatus memBlock.streamId
  | some prevIter => do
      let prevMemBuf ← s.readBuf prevIter.2
      if prevMemBuf.status = targetStatus then do
        let s ← s.eraseMemBufByStatus prevMemBuf.size prevMemBuf.deviceAddr x.persistent
          targetStatus memBlock.streamId
        let memBuf ← s.readBuf x.memBuf
        let s := s.writeBuf prevIter.2 fun b => { b with size := addSize b.size memBuf.size }
        let s := s.deleteMemBuf x.memBlock deviceAddr x.memBuf
        s.putBack prevIter.2 x.persistent targetStatus memBlock.streamId
      else s.putBack x.memBuf x.persistent targetStatus memBlock.streamId

/-- `CombineMemBuf` at a place. -/
def combineAt (deviceAddr : Nat) (originStatus targetStatus : DynamicMemBufStatus) (x : Place)
    (s : DynamicMemPoolBestFitOpt) : Except Fault DynamicMemPoolBestFitOpt := do
  let memBuf ← s.readBuf x.memBuf
  let s := s.writeBuf x.memBuf fun b => { b with status := targetStatus }
  let s := s.setMps x.persistent (DeviceState.leave originStatus memBuf.size)
  let s ← s.combineNext deviceAddr x targetStatus
  s.combineMemBufForward deviceAddr x targetStatus

/-- An address that is nowhere is left alone. -/
def combineMemBuf (deviceAddr : Nat) (originStatus targetStatus : DynamicMemBufStatus)
    (s : DynamicMemPoolBestFitOpt) : Except Fault DynamicMemPoolBestFitOpt :=
  match s.findByAddr deviceAddr with
  | none => .ok s
  | some x => s.combineAt deviceAddr originStatus targetStatus x

def freeTensorMem (deviceAddr : Nat) (s : DynamicMemPoolBestFitOpt) :
    Except Fault DynamicMemPoolBestFitOpt :=
  s.combineMemBuf deviceAddr .used .idle

/-! ## Eager free -/

/-- What `FreeIdleMemsByEagerFree` does to one of the pools. `CombineMemBuf` from idle to
eager free does not write to `idle_mem_bufs_`, so the loops go over what is there first. -/
def eagerFreeMem (persistent : Bool) (s : DynamicMemPoolBestFitOpt) :
    Except Fault DynamicMemPoolBestFitOpt := do
  let idleMemBufs := (s.mng persistent).idleMemBufs.flatMap MultiMap.entries
  let s ← idleMemBufs.foldlM (fun s e => do
    let memBuf ← s.readBuf e.2
    s.combineMemBuf memBuf.deviceAddr .idle .eagerFree) s
  .ok (s.setMng persistent { s.mng persistent with idleMemBufs := [] })

def freeIdleMemsByEagerFree (s : DynamicMemPoolBestFitOpt) :
    Except Fault DynamicMemPoolBestFitOpt := do
  let s ← s.eagerFreeMem true
  s.eagerFreeMem false

def addMemBlockAndMemBufByEagerFree (size : Nat) (fromPersistentMem : Bool) (streamId : Nat)
    (d : DeviceAnswer) (s : DynamicMemPoolBestFitOpt) :
    Except Fault (Nat × DynamicMemPoolBestFitOpt) :=
  if addSize s.totalUsedMemStatistics size > d.totalMemSize then .ok (nullptr, s)
  else do
    let s ← s.freeIdleMemsByEagerFree
    let (memAddr, s) ← s.findMemBufByStatus size fromPersistentMem .eagerFree streamId
    if memAddr ≠ nullptr then .ok (memAddr, s)
    else if d.eagerSize < d.totalMemSize then .ok (nullptr, s)
    else
      s.createMemBlockAndMemBuf size fromPersistentMem d.eagerAddr d.eagerSize .eagerFree streamId

/-! ## The calls -/

def addMemBlockAndMemBuf (size : Nat) (fromPersistentMem needRecycle : Bool) (streamId : Nat)
    (d : DeviceAnswer) (s : DynamicMemPoolBestFitOpt) :
    Except Fault (Nat × DynamicMemPoolBestFitOpt) :=
  let fromPersistentMem :=
    if fromPersistentMem = true ∧ needRecycle = false ∧ s.persistentMem.memBlockList ≠ [] then
      false
    else fromPersistentMem
  if s.isTriggerEagerFree then
    s.addMemBlockAndMemBufByEagerFree size fromPersistentMem streamId d
  else
    match calMemBlockAllocSize (s.mng fromPersistentMem).unitSize d.freeMemSize size with
    | none => .error .other
    | some allocMemSize =>
        if allocMemSize = 0 then do
          let (deviceAddr, s) ← s.findAvailableMemBuf size (!fromPersistentMem) streamId d
          if deviceAddr ≠ nullptr then .ok (deviceAddr, s)
          else if d.isEnableEagerFree then
            let s := { s with isTriggerEagerFree := true }
            s.addMemBlockAndMemBufByEagerFree size fromPersistentMem streamId d
          else .ok (nullptr, s)
        else if d.size < size then .ok (nullptr, s)
        else
          let s := { s with commonMem := { s.commonMem with unitSize := s.configUnitSize } }
          s.createMemBlockAndMemBuf size fromPersistentMem d.addr d.size .idle streamId

def allocTensorMem (size : Nat) (fromPersistentMem needRecycle : Bool) (streamId : Nat)
    (d : DeviceAnswer) (s : DynamicMemPoolBestFitOpt) :
    Except Fault (Nat × DynamicMemPoolBestFitOpt) := do
  let alignSize := alignMemorySize size
  let (deviceAddr, s) ← s.findAvailableMemBuf alignSize fromPersistentMem streamId d
  let first := needRecycle && !s.initRecycleMemory
  let s := if first then { s with initRecycleMemory := true } else s
  let deviceAddr := if first then nullptr else deviceAddr
  if deviceAddr = nullptr then
    s.addMemBlockAndMemBuf alignSize fromPersistentMem needRecycle streamId d
  else .ok (deviceAddr, s)

/-- The loop of `AllocContinuousTensorMem`: the addresses, the last buf, and the address
behind it. -/
def continuousBuf (q : Nat) (acc : (List Nat × Option Nat × Nat) × DynamicMemPoolBestFitOpt)
    (size : Nat) : (List Nat × Option Nat × Nat) × DynamicMemPoolBestFitOpt :=
  let ((addrs, _, bufAddr), s) := acc
  ((addrs ++ [bufAddr], some s.bufs.next, addSize bufAddr size),
    s.newMemBuf { deviceAddr := bufAddr, memBlockPtr := q, status := .used, size := size })

/-- The part of `AllocContinuousTensorMem` behind the allocation. -/
def replaceContinuous (sizeList : List Nat) (totalSize deviceAddr : Nat)
    (s : DynamicMemPoolBestFitOpt) : Except Fault (List Nat × DynamicMemPoolBestFitOpt) := do
  let persistent := (s.findMemBlock deviceAddr false).isNone
  match s.findMemBlock deviceAddr persistent with
  | none => .error .other
  | some q => do
      let memBlock ← s.readBlock q
      -- `find` that ends at `end()` is followed all the same
      match memBlock.blockAllMemBufMap.find? deviceAddr with
      | none => .error .other
      | some p => do
          let memBuf ← s.readBuf p
          let restSize := subSize memBuf.size totalSize
          let ((addrs, last, _), s) :=
            sizeList.foldl (continuousBuf q) (([], none, deviceAddr), s.deleteMemBuf q deviceAddr p)
          -- the pointer to the last buf is not set if there is none
          match last with
          | none => .error .other
          | some p => .ok (addrs, s.writeBuf p fun b => { b with size := addSize b.size restSize })

def allocContinuousTensorMem (sizeList : List Nat) (streamId : Nat) (d : DeviceAnswer)
    (s : DynamicMemPoolBestFitOpt) : Except Fault (List Nat × DynamicMemPoolBestFitOpt) := do
  let totalSize := accumulate sizeList
  let (deviceAddr, s) ← s.allocTensorMem totalSize false false streamId d
  if deviceAddr = nullptr then .ok ([], s) else s.replaceContinuous sizeList totalSize deviceAddr

/-- The search of `FindByKeepAddr` in one of the pools. -/
def findKeep (deviceAddr : Nat) (persistent : Bool) (s : DynamicMemPoolBestFitOpt) :
    Option Place := do
  let q ← s.findMemBlock deviceAddr persistent
  let memBlock ← s.blocks.get q
  let iter ← memBlock.blockAllMemBufMap.floor? deviceAddr
  let memBuf ← s.bufs.get iter.2
  if memBuf.deviceAddr ≤ deviceAddr ∧ subSize deviceAddr memBuf.deviceAddr ≤ memBuf.size then
    some ⟨persistent, q, iter.2⟩
  else none

def findByKeepAddr (deviceAddr : Nat) (s : DynamicMemPoolBestFitOpt) : Option Place :=
  (s.findKeep deviceAddr false).or (s.findKeep deviceAddr true)

/-- The part of `KeepTensorMemByAddr` that splits the left buf. -/
def keepLeft (deviceAddr size splitLeftSize : Nat) (x : Place) (streamId : Nat)
    (s : DynamicMemPoolBestFitOpt) : Except Fault DynamicMemPoolBestFitOpt :=
  if splitLeftSize = 0 then
    .ok (s.writeBuf x.memBuf fun b => { b with status := .used, size := size })
  else do
    let s := s.writeBuf x.memBuf fun b => { b with size := splitLeftSize }
    let s ← s.addMemBuf x.persistent .idle streamId splitLeftSize x.memBuf
    .ok (s.newMemBuf
      { deviceAddr := deviceAddr, memBlockPtr := x.memBlock, status := .used, size := size })

/-- The part of `KeepTensorMemByAddr` that splits the right buf. -/
def keepRight (deviceAddr size splitRightSize : Nat) (x : Place) (streamId : Nat)
    (s : DynamicMemPoolBestFitOpt) : Except Fault DynamicMemPoolBestFitOpt :=
  if 0 < splitRightSize then
    let p := s.bufs.next
    (s.newMemBuf
      { deviceAddr := addSize deviceAddr size, memBlockPtr := x.memBlock, status := .idle
        size := splitRightSize }).addMemBuf x.persistent .idle streamId splitRightSize p
  else .ok s

def keepTensorMemByAddr (deviceAddr size : Nat) (s : DynamicMemPoolBestFitOpt) :
    Except Fault DynamicMemPoolBestFitOpt :=
  match s.findByKeepAddr deviceAddr with
  -- the null pointer is followed
  | none => .error .other
  | some x => do
      let memBlock ← s.readBlock x.memBlock
      let memBuf ← s.readBuf x.memBuf
      let splitLeftSize := subSize deviceAddr memBuf.deviceAddr
      let splitRightSize := subSize (subSize memBuf.size splitLeftSize) size
      let s ← s.eraseMemBufByStatus memBuf.size memBuf.deviceAddr x.persistent memBuf.status
        memBlock.streamId
      let s ← s.keepLeft deviceAddr size splitLeftSize x memBlock.streamId
      let s ← s.keepRight deviceAddr size splitRightSize x memBlock.streamId
      .ok (s.setMps x.persistent fun mps => (mps.addUsed size).subIdle size)

/-- `FreePartTensorMems`; the addresses and the sizes to keep are one list. -/
def freePartTensorMems (freeAddrs : List Nat) (keeps : List (Nat × Nat))
    (s : DynamicMemPoolBestFitOpt) : Except Fault DynamicMemPoolBestFitOpt := do
  let s ← freeAddrs.foldlM (fun s a => s.freeTensorMem a) s
  keeps.foldlM (fun s k => s.keepTensorMemByAddr k.1 k.2) s

def setMemAllocUintSize (commonSize persistSize : Nat) (s : DynamicMemPoolBestFitOpt) :
    DynamicMemPoolBestFitOpt :=
  { s with
    persistentMem := { s.persistentMem with unitSize := persistSize }
    commonMem := { s.commonMem with unitSize := commonSize }
    configUnitSize := commonSize }

/-- The destructor of a block deletes its bufs. -/
def destroyBlock (s : DynamicMemPoolBestFitOpt) (q : Nat) : DynamicMemPoolBestFitOpt :=
  match s.blocks.get q with
  | none => s
  | some b =>
      { s with
        bufs := b.blockAllMemBufMap.entries.foldl (fun bufs e => bufs.delete e.2) s.bufs
        blocks := s.blocks.delete q }

/-- `Clear` for one of the pools; nothing else has a pointer to its blocks. -/
def clearMng (persistent : Bool) (s : DynamicMemPoolBestFitOpt) : DynamicMemPoolBestFitOpt :=
  let m := s.mng persistent
  (m.memBlockList.foldl destroyBlock s).setMng persistent m.clear

def releaseDeviceRes (s : DynamicMemPoolBestFitOpt) : DynamicMemPoolBestFitOpt :=
  (s.clearMng false).clearMng true

end DynamicMemPoolBestFitOpt

inductive PoolCall where
  | allocTensorMem (size : Nat) (fromPersistentMem needRecycle : Bool) (streamId : Nat)
      (d : DeviceAnswer)
  | allocContinuousTensorMem (sizeList : List Nat) (streamId : Nat) (d : DeviceAnswer)
  | freeTensorMem (deviceAddr : Nat)
  | freePartTensorMems (freeAddrs : List Nat) (keeps : List (Nat × Nat))
  | setMemAllocUintSize (commonSize persistSize : Nat)
  | releaseDeviceRes
  deriving DecidableEq, Repr

namespace DynamicMemPoolBestFitOpt

def call (s : DynamicMemPoolBestFitOpt) : PoolCall → Except Fault DynamicMemPoolBestFitOpt
  | .allocTensorMem size fromPersistentMem needRecycle streamId d =>
      (s.allocTensorMem size fromPersistentMem needRecycle streamId d).map Prod.snd
  | .allocContinuousTensorMem sizeList streamId d =>
      (s.allocContinuousTensorMem sizeList streamId d).map Prod.snd
  | .freeTensorMem deviceAddr => s.freeTensorMem deviceAddr
  | .freePartTensorMems freeAddrs keeps => s.freePartTensorMems freeAddrs keeps
  | .setMemAllocUintSize commonSize persistSize =>
      .ok (s.setMemAllocUintSize commonSize persistSize)
  | .releaseDeviceRes => .ok s.releaseDeviceRes

end DynamicMemPoolBestFitOpt

end Opt

end Ccbase.DynamicMem
