import Ccbase.Memory.Allocator
import Ccbase.Lib.OrdMap

/-!
# `AbstractDynamicMemPool`

The pool: one allocator for each (persistent flag, stream), an optional
allocator for small requests, the map from addresses to live buffers, the
buffers that carry events, and the statistics. The virtual functions of the
pool that a concrete pool overrides are the fields of a `Device` over a state
`δ`; as with the callbacks of an allocator, `none` is a call that does not come
back. The lock of the pool makes every operation atomic.

`std::set<MemBuf *>` is ordered by the addresses of the objects, which the host
decides: `Device.bufAddress` is any injective choice of them. The iteration
order of an `std::unordered_map` is an argument of the one operation whose
result depends on it.
-/

namespace Ccbase.Memory

open Ccbase.Lib

/-- The virtual functions of `DynamicMemPool`. -/
structure Device (δ : Type) where
  /-- `(alloc_size, *addr)` for a size. -/
  allocDeviceMem : Nat → δ → Option ((Nat × Nat) × δ)
  freeDeviceMem : Nat → δ → Option (Bool × δ)
  allocDeviceMemByEagerFree : Nat → δ → Option ((Nat × Nat) × δ)
  freeDeviceMemByEagerFree : Nat → Nat → δ → Option (Nat × δ)
  mmapDeviceMem : Nat → Nat → δ → Option (Nat × δ)
  syncAllStreams : δ → Option (Bool × δ)
  freeMemSize : δ → Nat
  totalMemSize : δ → Nat
  isEnableEagerFree : Bool
  /-- Where the host puts the `MemBuf` objects. -/
  bufAddress : Nat → Nat := id
  bufAddress_inj : Function.Injective bufAddress := by exact fun _ _ h => h

/-- A `MemBufAllocator *` of the pool. -/
inductive AllocatorKey where
  | tiny
  | stream (isPersistent : Bool) (streamId : Nat)
  deriving DecidableEq, Repr

/-- What the callbacks of the allocators read and write. -/
structure Env (δ : Type) where
  memStat : MemStat
  device : δ

structure Pool (δ : Type) where
  bufs : Heap MemBuf := Heap.empty
  blocks : Heap MemBlock := Heap.empty
  tinyAllocator : Option MemBufAllocator := none
  streamIdAllocators : OrdMap (Lex (Bool × Nat)) MemBufAllocator := OrdMap.empty
  addrMemBufAllocators : UMap Nat (Nat × AllocatorKey) := ∅
  streamPairMemBufs : UMap (Nat × Nat) (List Nat) := ∅
  memStat : MemStat := {}
  enableVmm : Bool := false
  commonUnitSize : Nat := kDynamicMemAllocUnitSize
  persistUnitSize : Nat := kDynamicMemAllocUnitSize
  eagerFreeCount : Nat := 0
  lastEagerFreeCount : Nat := 0
  device : δ

/-! ## The block size -/

/-- Growing at twice of alloc unit size. A `size_t` that has not reached
`size` after 64 doublings is `0` and stays `0`: the loop never ends. -/
def growAllocSize (size : Nat) : Nat → Nat → Option Nat
  | 0, _ => none
  | fuel + 1, allocMemSize =>
      if allocMemSize < size then growAllocSize size fuel (mulSize allocMemSize 2)
      else some allocMemSize

/-- `CalMemBlockAllocSize`, `0` for not enough memory. -/
def calMemBlockAllocSize (deviceFreeMemSize unitSize size : Nat) : Option Nat :=
  if deviceFreeMemSize < size then some 0
  else (growAllocSize size 65 unitSize).map fun n => min n deviceFreeMemSize

namespace Pool

variable {δ : Type} (dev : Device δ)

/-! ## Construction and the callbacks -/

/-- The tiny allocator is there when `ENABLE_TINY_ALLOCATOR` is set. -/
def init (enableVmm enableTiny : Bool) (device : δ) : Pool δ where
  enableVmm := enableVmm
  tinyAllocator :=
    if enableTiny then some { enableEagerFree := false, isPersistent := false, streamId := 0 }
    else none
  device := device

def memAllocUnitSize (s : Pool δ) (fromPersistentMem : Bool) : Nat :=
  if fromPersistentMem then s.persistUnitSize else s.commonUnitSize

/-- The common end of the two expanders: statistics and the new block. -/
def newMemBlock (allocSize addr streamId : Nat) (e : Env δ) : Option MemBlock × Env δ :=
  if allocSize = 0 then (none, e)
  else
    (some { size := allocSize, addr := addr, streamId := streamId },
      { e with memStat := { e.memStat with
          allocSize := addSize e.memStat.allocSize allocSize } })

/-- The expander of the tiny allocator: blocks of 1MB from `AllocDeviceMem`. -/
def tinyExpander (_size : Nat) (e : Env δ) : Option (Option MemBlock × Env δ) := do
  let ((allocSize, addr), device) ← dev.allocDeviceMem (1024 * 1024) e.device
  some (newMemBlock allocSize addr 0 { e with device })

/-- The expander of `GenerateAllocator`. -/
def streamExpander (s : Pool δ) (isPersistent : Bool) (streamId size : Nat) (e : Env δ) :
    Option (Option MemBlock × Env δ) := do
  let blockSize ← calMemBlockAllocSize (dev.freeMemSize e.device)
    (s.memAllocUnitSize isPersistent) size
  if blockSize = 0 then some (none, e)
  else if dev.isEnableEagerFree || s.enableVmm then do
    -- virtual address is unlimited
    let eagerFreeSize := max blockSize (dev.totalMemSize e.device)
    let ((allocSize, addr), device) ← dev.allocDeviceMemByEagerFree eagerFreeSize e.device
    some (newMemBlock allocSize addr streamId
      { memStat := { e.memStat with
          eagerFreeSize := addSize e.memStat.eagerFreeSize allocSize }
        device := device })
  else do
    let ((allocSize, addr), device) ← dev.allocDeviceMem blockSize e.device
    some (newMemBlock allocSize addr streamId { e with device })

def memBlockCleaner (blk : MemBlock) (e : Env δ) : Option (Bool × Env δ) := do
  let (ok, device) ← dev.freeDeviceMem blk.addr e.device
  some (ok,
    { memStat := { e.memStat with allocSize := subSize e.memStat.allocSize blk.size }
      device := device })

/-- The counter is lowered before the device is asked. -/
def memMapper (size addr : Nat) (e : Env δ) : Option (Nat × Env δ) := do
  let (n, device) ← dev.mmapDeviceMem size addr e.device
  some (n,
    { memStat := { e.memStat with eagerFreeSize := subSize e.memStat.eagerFreeSize size }
      device := device })

def memEagerFreer (addr size : Nat) (e : Env δ) : Option (Nat × Env δ) := do
  let (n, device) ← dev.freeDeviceMemByEagerFree addr size e.device
  some (n, { e with device })

def callbacks (s : Pool δ) (k : AllocatorKey) : Callbacks (Env δ) where
  memBlockExpander := match k with
    | .tiny => tinyExpander dev
    | .stream isPersistent streamId => streamExpander dev s isPersistent streamId
  memBlockCleaner := memBlockCleaner dev
  memMapper := memMapper dev
  memEagerFreer := memEagerFreer dev

/-! ## The allocators of the pool -/

def allocator? (s : Pool δ) : AllocatorKey → Option MemBufAllocator
  | .tiny => s.tinyAllocator
  | .stream isPersistent streamId => s.streamIdAllocators.find? (toLex (isPersistent, streamId))

def setAllocator (s : Pool δ) (k : AllocatorKey) (al : MemBufAllocator) : Pool δ :=
  match k with
  | .tiny => { s with tinyAllocator := s.tinyAllocator.map fun _ => al }
  | .stream isPersistent streamId =>
      { s with streamIdAllocators :=
          s.streamIdAllocators.modify (toLex (isPersistent, streamId)) fun _ => al }

/-- All allocators the pool owns. -/
def allocators (s : Pool δ) : List (AllocatorKey × MemBufAllocator) :=
  (s.tinyAllocator.toList.map fun al => (.tiny, al)) ++
    s.streamIdAllocators.entries.map fun e => (.stream (ofLex e.1).1 (ofLex e.1).2, e.2)

def ctx (s : Pool δ) (al : MemBufAllocator) : Ctx (Env δ) :=
  { alloc := al, bufs := s.bufs, blocks := s.blocks
    env := { memStat := s.memStat, device := s.device } }

/-- The state of the pool after a method of allocator `k`. -/
def putCtx (s : Pool δ) (k : AllocatorKey) (c : Ctx (Env δ)) : Pool δ :=
  { s.setAllocator k c.alloc with
    bufs := c.bufs, blocks := c.blocks, memStat := c.env.memStat, device := c.env.device }

def generateAllocator (s : Pool δ) (isPersistent : Bool) (streamId : Nat) : MemBufAllocator :=
  { enableEagerFree := dev.isEnableEagerFree || s.enableVmm
    isPersistent := isPersistent
    streamId := streamId }

/-- The allocator of a stream is made on first use. -/
def addAllocator (isPersistent : Bool) (streamId : Nat) (s : Pool δ) : Pool δ :=
  { s with
    streamIdAllocators := s.streamIdAllocators.emplace (toLex (isPersistent, streamId))
      (generateAllocator dev s isPersistent streamId) }

def getMemBufAllocator (size : Nat) (fromPersistentMem : Bool) (streamId : Nat)
    (s : Pool δ) : AllocatorKey × Pool δ :=
  if s.tinyAllocator.isSome && decide (size ≤ 1024 * 1024) then (.tiny, s)
  else (.stream fromPersistentMem streamId, addAllocator dev fromPersistentMem streamId s)

def malloc (k : AllocatorKey) (size : Nat) (s : Pool δ) : Option (Option Nat × Pool δ) :=
  match s.allocator? k with
  | none => some (none, s)
  | some al => do
      let (p, c) ← MemBufAllocator.malloc (callbacks dev s k) size (s.ctx al)
      some (p, s.putCtx k c)

def mallocExpandBlock (k : AllocatorKey) (size : Nat) (s : Pool δ) :
    Option (Option Nat × Pool δ) :=
  match s.allocator? k with
  | none => some (none, s)
  | some al => do
      let (p, c) ← MemBufAllocator.mallocExpandBlock (callbacks dev s k) size (s.ctx al)
      some (p, s.putCtx k c)

/-! ## Free -/

def doFreeTensorMem (deviceAddr : Nat) (s : Pool δ) : Bool × Pool δ :=
  match s.addrMemBufAllocators.lookup deviceAddr with
  | none => (false, s)
  | some (p, k) =>
      match s.allocator? k, s.bufs.get p with
      | some al, some b =>
          let (freed, c) := MemBufAllocator.free p .idle (s.ctx al)
          let s := s.putCtx k c
          if freed then
            (true, { s with
              memStat := { s.memStat with usedSize := subSize s.memStat.usedSize b.size }
              addrMemBufAllocators := s.addrMemBufAllocators.erase deviceAddr })
          else (false, s)
      | _, _ => (false, s)

def freeTensorMem (deviceAddr : Nat) (s : Pool δ) : Pool δ :=
  (doFreeTensorMem deviceAddr s).2

/-! ## Events -/

/-- `stream_pair_mem_bufs_[key].erase(mem_buf)`. -/
def erasePair (key : Nat × Nat) (p : Nat) (s : Pool δ) : Pool δ :=
  match s.streamPairMemBufs.lookup key with
  | none => s
  | some ps => { s with streamPairMemBufs := s.streamPairMemBufs.insert key (ps.erase p) }

/-- The buffer is erased from every set. -/
def eraseAllPairs (p : Nat) (s : Pool δ) : Pool δ :=
  (s.streamPairMemBufs.entries.map Sigma.fst).foldl (fun s key => erasePair key p s) s

/-- `mem_stat_.used_by_event_size_` raised or lowered. -/
def addUsedByEvent (n : Nat) (s : Pool δ) : Pool δ :=
  { s with memStat := { s.memStat with
      usedByEventSize := addSize s.memStat.usedByEventSize n } }

def subUsedByEvent (n : Nat) (s : Pool δ) : Pool δ :=
  { s with memStat := { s.memStat with
      usedByEventSize := subSize s.memStat.usedByEventSize n } }

/-- The events of a buffer are replaced. -/
def setEvents (s : Pool δ) (p : Nat) (e : EventBase) : Pool δ :=
  { s with bufs := s.bufs.modify p fun b => { b with toEventBase := e } }

/-- `RecordEvent` for one address. -/
def recordOne (taskIdOnStream : Int) (userStreamId : Nat) (event : DeviceEvent)
    (s : Pool δ) (memoryStreamAddress : Nat × Nat) : Pool δ :=
  match s.addrMemBufAllocators.lookup memoryStreamAddress.2 with
  | none => s
  | some (p, _) =>
      match s.bufs.get p with
      | none => s
      | some b =>
          let s := if b.isEventNotUsed then s.addUsedByEvent b.size else s
          let key := (userStreamId, memoryStreamAddress.1)
          let ps := (s.streamPairMemBufs.lookup key).getD []
          { s.setEvents p (b.toEventBase.recordEvent taskIdOnStream userStreamId event) with
            streamPairMemBufs :=
              s.streamPairMemBufs.insert key (OrdSet.emplace dev.bufAddress p ps) }

def recordEvent (taskIdOnStream : Int) (userStreamId : Nat)
    (memoryStreamAddresses : List (Nat × Nat)) (event : DeviceEvent) (s : Pool δ) : Pool δ :=
  memoryStreamAddresses.foldl (recordOne dev taskIdOnStream userStreamId event) s

/-- `EventBase::WaitEvent` takes a `uint32_t`: the conversion of an `int64_t`. -/
def toUInt32 (taskIdOnStream : Int) : Nat := (taskIdOnStream % 2 ^ 32).toNat

/-- One turn of the wait loops: pop the events of the user stream, and free
the buffer if it was waiting for them. A pointer to a deleted buffer is
skipped. -/
def waitOne (taskIdOnStream : Int) (key : Nat × Nat) (s : Pool δ) (p : Nat) : Pool δ :=
  match s.bufs.get p with
  | none => s
  | some b =>
      let e := (b.toEventBase.waitEvent (toUInt32 taskIdOnStream) key.1).2
      let s := s.setEvents p e
      if e.isEventNotUsed then
        let s := (erasePair key p s).subUsedByEvent b.size
        if b.status = .usedByEvent then
          -- force clear all mem bufs
          (doFreeTensorMem b.addr (eraseAllPairs p s)).2
        else s
      else s

/-- The loop over a copy of one set. -/
def waitPair (taskIdOnStream : Int) (s : Pool δ) (key : Nat × Nat) : Pool δ :=
  ((s.streamPairMemBufs.lookup key).getD []).foldl (waitOne taskIdOnStream key) s

def waitEvent (taskIdOnStream : Int) (userStreamId memoryStreamId : Nat) (s : Pool δ) :
    Bool × Pool δ :=
  match s.streamPairMemBufs.lookup (userStreamId, memoryStreamId) with
  | none => (false, s)
  | some _ => (true, waitPair taskIdOnStream s (userStreamId, memoryStreamId))

/-- The overload without a user stream. `order` is the iteration order of
`stream_pair_mem_bufs_`. -/
def waitEventOnMemoryStream (taskIdOnStream : Int) (memoryStreamId : Nat)
    (order : List (Nat × Nat)) (s : Pool δ) : Pool δ :=
  (order.filter fun key => decide (key.2 = memoryStreamId)).foldl (waitPair taskIdOnStream) s

/-- `carry_event_mem_bufs`: all members of all sets, in the order of a
`std::set`. -/
def carryEventMemBufs (s : Pool δ) : List Nat :=
  (s.streamPairMemBufs.entries.flatMap Sigma.snd).foldl
    (fun acc p => OrdSet.emplace dev.bufAddress p acc) []

def syncOne (s : Pool δ) (p : Nat) : Pool δ :=
  match s.bufs.get p with
  | none => s
  | some b =>
      let (synced, e) := b.toEventBase.syncAllEvents
      let s := s.setEvents p e
      if synced && decide (b.status = .usedByEvent) then (doFreeTensorMem b.addr s).2
      else s

def doSyncAllEvents (s : Pool δ) : Bool × Pool δ :=
  if s.streamPairMemBufs.entries.isEmpty then (false, s)
  else
    (true, { (carryEventMemBufs dev s).foldl syncOne s with streamPairMemBufs := ∅ })

/-! ## Eager free -/

/-- `FreeIdleMemsByEagerFree` of every stream allocator in turn. -/
def eagerFreeAllocators : List (Lex (Bool × Nat)) → Nat → Nat → Pool δ →
    Option ((Nat × Nat) × Pool δ)
  | [], eagerFree, realFree, s => some ((eagerFree, realFree), s)
  | key :: keys, eagerFree, realFree, s =>
      match s.streamIdAllocators.find? key with
      | none => eagerFreeAllocators keys eagerFree realFree s
      | some al => do
          let k := AllocatorKey.stream (ofLex key).1 (ofLex key).2
          let ((n, m), c) ←
            MemBufAllocator.freeIdleMemsByEagerFree (callbacks dev s k) (s.ctx al)
          eagerFreeAllocators keys (addSize eagerFree n) (addSize realFree m) (s.putCtx k c)

def freeIdleMemsByEagerFree (s : Pool δ) : Option ((Nat × Nat) × Pool δ) := do
  let s := { s with eagerFreeCount := addSize s.eagerFreeCount 1 }
  let ((total, real), s) ←
    eagerFreeAllocators dev (s.streamIdAllocators.entries.map Prod.fst) 0 0 s
  some ((total, real), { s with memStat := { s.memStat with
    eagerFreeSize := addSize s.memStat.eagerFreeSize total } })

def syncAllStreams (s : Pool δ) : Option (Bool × Pool δ) := do
  let (ok, device) ← dev.syncAllStreams s.device
  some (ok, { s with device })

def defragMemory (s : Pool δ) : Option (Pool δ) :=
  if !s.enableVmm then some s
  else if s.eagerFreeCount = 0 then some s
  else if s.lastEagerFreeCount = s.eagerFreeCount then some s
  else do
    let (ok, s) ← syncAllStreams dev s
    if !ok then some s
    else do
      let (_, s) ← freeIdleMemsByEagerFree dev s
      some { s with lastEagerFreeCount := s.eagerFreeCount }

/-! ## Alloc -/

/-- How the search for a buffer ends before events are synced. -/
inductive Attempt where
  | found (p : Nat) (k : AllocatorKey)
  | syncFailed
  | exhausted (k : AllocatorKey)

/-- Find from another allocator: only for persistent memory without vmm. -/
def mallocFromAnother (alignSize : Nat) (fromPersistentMem : Bool) (streamId : Nat)
    (k : AllocatorKey) (s : Pool δ) : Option ((Option Nat × AllocatorKey) × Pool δ) :=
  if !s.enableVmm && fromPersistentMem then do
    let (k, s) := getMemBufAllocator dev alignSize (!fromPersistentMem) streamId s
    let (p, s) ← malloc dev k alignSize s
    some ((p, k), s)
  else some ((none, k), s)

/-- Do eager free and find from the current allocator again, then expand. -/
def mallocAfterEagerFree (alignSize : Nat) (k : AllocatorKey) (s : Pool δ) :
    Option (Attempt × Pool δ) := do
  let expand := fun (s : Pool δ) => do
    let (p, s) ← mallocExpandBlock dev k alignSize s
    match p with
    | some p => some (.found p k, s)
    | none => some (.exhausted k, s)
  if dev.isEnableEagerFree || s.enableVmm then do
    let (ok, s) ← syncAllStreams dev s
    if !ok then some (.syncFailed, s)
    else do
      let (_, s) ← freeIdleMemsByEagerFree dev s
      let (p, s) ← malloc dev k alignSize s
      match p with
      | some p => some (.found p k, s)
      | none => expand s
  else expand s

/-- Steps 2 to 5 of the allocation. -/
def findMemBuf (alignSize : Nat) (fromPersistentMem : Bool) (streamId : Nat)
    (s : Pool δ) : Option (Attempt × Pool δ) := do
  let (k, s) := getMemBufAllocator dev alignSize fromPersistentMem streamId s
  let (p, s) ← malloc dev k alignSize s
  match p with
  | some p => some (.found p k, s)
  | none => do
      let ((p, k), s) ← mallocFromAnother dev alignSize fromPersistentMem streamId k s
      match p with
      | some p => some (.found p k, s)
      | none => mallocAfterEagerFree dev alignSize k s

/-- Update stat. -/
def countUsed (p : Nat) (s : Pool δ) : Pool δ :=
  match s.bufs.get p with
  | none => s
  | some b =>
      { s with memStat :=
          ({ s.memStat with usedSize := addSize s.memStat.usedSize b.size }).updatePeakSize }

def allocMemBuf (alignSize : Nat) (fromPersistentMem : Bool) (streamId : Nat)
    (s : Pool δ) : Option (Option (Nat × AllocatorKey) × Pool δ) := do
  let (r, s) ← findMemBuf dev alignSize fromPersistentMem streamId s
  match r with
  | .found p k => some (some (p, k), countUsed p s)
  | .syncFailed => some (none, s)
  | .exhausted k => do
      -- sync all events to release memory
      let (_, s) := doSyncAllEvents dev s
      let (p, s) ← malloc dev k alignSize s
      match p with
      | some p => some (some (p, k), countUsed p s)
      | none => some (none, s)

/-- `emplace` into `addr_mem_buf_allocators_`. -/
def emplaceAddr (addr : Nat) (v : Nat × AllocatorKey) (s : Pool δ) : Pool δ :=
  if (s.addrMemBufAllocators.lookup addr).isSome then s
  else { s with addrMemBufAllocators := s.addrMemBufAllocators.insert addr v }

/-- The address of the allocation, `0` for `nullptr`. -/
def allocTensorMem (size : Nat) (fromPersistentMem : Bool) (streamId : Nat) (s : Pool δ) :
    Option (Nat × Pool δ) := do
  let (r, s) ← allocMemBuf dev (alignMemorySize size) fromPersistentMem streamId s
  match r with
  | none => some (0, s)
  | some (p, k) =>
      let addr := ((s.bufs.get p).map MemBuf.addr).getD 0
      some (addr, emplaceAddr addr (p, k) s)

/-- Split the buffer of a continuous allocation: `prev` is the last buffer so
far, the new one starts at `nextAddr`. -/
def splitContinuous (streamId : Nat) (b : MemBuf) (k : AllocatorKey) :
    List Nat → Nat → Nat → Nat → List Nat → Pool δ → List Nat × Pool δ
  | [], _, _, _, addrs, s => (addrs, s)
  | n :: ns, prev, nextAddr, totalSize, addrs, s =>
      let p := s.bufs.next
      let bufs := s.bufs.new
        { size := n, addr := nextAddr, streamId, memBlock := b.memBlock, status := .used }
      let prevNext := ((bufs.get prev).map MemBuf.next).getD none
      let bufs := linkMemBuf bufs p (some prev) prevNext
      let s := emplaceAddr nextAddr (p, k) { s with bufs }
      let addrs := addrs ++ [nextAddr]
      if ns.isEmpty then
        -- update last mem buf
        (addrs, if totalSize ≠ n then
          { s with bufs := s.bufs.modify p fun x => { x with size := totalSize } } else s)
      else splitContinuous streamId b k ns p (nextAddr + n) (subSize totalSize n) addrs s

def allocContinuousTensorMem (sizeList : List Nat) (streamId : Nat) (s : Pool δ) :
    Option (List Nat × Pool δ) := do
  let totalSize := sizeList.foldl addSize 0
  let (deviceAddr, s) ← allocTensorMem dev totalSize false streamId s
  if deviceAddr = 0 then some ([], s)
  else if sizeList.length = 1 then some ([deviceAddr], s)
  else
    match s.addrMemBufAllocators.lookup deviceAddr with
    | none => some ([deviceAddr], s)
    | some (p, k) =>
        match s.bufs.get p with
        | none => some ([deviceAddr], s)
        | some b =>
            let n := sizeList.headD 0
            let s := { s with bufs := s.bufs.modify p fun x => { x with size := n } }
            some (splitContinuous streamId b k sizeList.tail p (b.addr + n)
              (subSize totalSize n) [deviceAddr] s)

/-! ## Part free -/

/-- The buffers named by `free_addrs`, by address. -/
def freeCandidates (freeAddrs : List Nat) (s : Pool δ) : OrdMap Nat (Nat × AllocatorKey) :=
  freeAddrs.foldl (fun m a =>
    match s.addrMemBufAllocators.lookup a with
    | some v => m.emplace a v
    | none => m) OrdMap.empty

/-- The state of the loop over the keep addresses. -/
structure PartFree (δ : Type) where
  pool : Pool δ
  candidates : OrdMap Nat (Nat × AllocatorKey)
  processed : List Nat := []
  memBufs : List Nat := []

/-- A new buffer right behind `p`, linked and entered into the address map. -/
def insertBehind (p : Nat) (b : MemBuf) (k : AllocatorKey) (s : Pool δ) : Nat × Pool δ :=
  let q := s.bufs.next
  let bufs := s.bufs.new b
  let pNext := ((bufs.get p).map MemBuf.next).getD none
  (q, emplaceAddr b.addr (q, k) { s with bufs := linkMemBuf bufs q (some p) pNext })

/-- Process last mem buf: what lies behind the kept range. -/
def keepTail (keep keepEnd baseEnd : Nat) (status : MemBufStatus) (k : AllocatorKey)
    (st : PartFree δ) : PartFree δ :=
  if keepEnd < baseEnd then
    match st.pool.bufs.get keep with
    | none => st
    | some kb =>
        let lastAddr := kb.addr + kb.size
        let (last, pool) := insertBehind keep
          { size := baseEnd - keepEnd, addr := lastAddr, streamId := kb.streamId,
            memBlock := kb.memBlock, status } k st.pool
        { st with pool, candidates := st.candidates.emplace lastAddr (last, k) }
  else st

def keepOne (st : PartFree δ) (keepAddr keepSize : Nat) : PartFree δ :=
  if keepAddr ∈ st.processed then st
  else
    let st := { st with processed := keepAddr :: st.processed }
    match st.candidates.floor? keepAddr with
    | none => st
    | some (_, p, k) =>
        match st.pool.bufs.get p with
        | none => st
        | some b =>
            let baseEnd := addSize b.addr b.size
            let keepEnd := addSize keepAddr keepSize
            if baseEnd ≤ keepAddr then st
            else if keepAddr = b.addr then
              -- the head of the buffer is kept
              let pool := { st.pool with
                bufs := st.pool.bufs.modify p fun x => { x with size := keepSize } }
              keepTail p keepEnd baseEnd b.status k
                { st with pool, candidates := st.candidates.erase b.addr
                          memBufs := st.memBufs ++ [p] }
            else
              -- split middle mem buf
              let (q, pool) := insertBehind p
                { size := keepSize, addr := keepAddr, streamId := b.streamId,
                  memBlock := b.memBlock, status := b.status } k st.pool
              let pool := { pool with bufs := pool.bufs.modify p fun x =>
                { x with size := keepAddr - b.addr } }
              keepTail q keepEnd baseEnd b.status k
                { st with pool, memBufs := st.memBufs ++ [q] }

/-- `keep_addr_sizes[i]` belongs to `keep_addrs[i]`. -/
def keepAll (keeps : List (Nat × Nat)) (st : PartFree δ) : PartFree δ :=
  keeps.foldl (fun st keep => keepOne st keep.1 keep.2) st

def freeCandidate (s : Pool δ) (candidate : Nat × (Nat × AllocatorKey)) : Pool δ :=
  match s.bufs.get candidate.2.1 with
  | none => s
  | some b => (doFreeTensorMem b.addr s).2

def doFreePartTensorMems (freeAddrs keepAddrs keepAddrSizes : List Nat) (s : Pool δ) :
    List Nat × Pool δ :=
  let st := keepAll (keepAddrs.zip keepAddrSizes)
    { pool := s, candidates := freeCandidates freeAddrs s }
  (st.memBufs, st.candidates.entries.foldl freeCandidate st.pool)

def freePartTensorMems (freeAddrs keepAddrs keepAddrSizes : List Nat) (s : Pool δ) : Pool δ :=
  (doFreePartTensorMems freeAddrs keepAddrs keepAddrSizes s).2

/-! ## Release and the setters -/

def releaseAllocators : List (Lex (Bool × Nat)) → Pool δ → Option (Pool δ)
  | [], s => some s
  | key :: keys, s =>
      match s.streamIdAllocators.find? key with
      | none => releaseAllocators keys s
      | some al => do
          let k := AllocatorKey.stream (ofLex key).1 (ofLex key).2
          let c ← MemBufAllocator.releaseDeviceRes (callbacks dev s k) (s.ctx al)
          releaseAllocators keys (s.putCtx k c)

def releaseDeviceRes (s : Pool δ) : Option (Pool δ) := do
  -- clear map of address to mem buf
  let s := { s with
    bufs := MemBufAllocator.deleteAll
      (s.addrMemBufAllocators.entries.map fun e => e.2.1) s.bufs
    addrMemBufAllocators := ∅ }
  let s ← releaseAllocators dev (s.streamIdAllocators.entries.map Prod.fst) s
  some { s with
    streamIdAllocators := OrdMap.empty, streamPairMemBufs := ∅, memStat := MemStat.reset }

def setEnableVmm (enableVmm : Bool) (s : Pool δ) : Pool δ := { s with enableVmm }

def setMemAllocUintSize (commonSize persistSize : Nat) (s : Pool δ) : Pool δ :=
  { s with commonUnitSize := commonSize, persistUnitSize := persistSize }

def resetMaxMemReserved (s : Pool δ) : Pool δ :=
  { s with memStat := { s.memStat with tempAllocSize := s.memStat.allocSize } }

def resetMaxMemAllocated (s : Pool δ) : Pool δ :=
  { s with memStat := { s.memStat with
      tempUsedSize := s.memStat.usedSize
      tempUsedByEventSize := s.memStat.usedByEventSize
      tempPeakSize := 0 } }

end Pool

end Ccbase.Memory
