import Ccbase.Lib.SizeT
import Ccbase.Lib.Chain
import Mathlib.Data.List.AList

/-!
# Memory buffers, blocks and statistics

The data model of the dynamic memory pool (`dynamic_memory_pool.h` and the
first half of `abstract_dynamic_memory_pool.h`): the events that protect a
buffer, the `MemBuf` that covers a range of a block, the `MemBlock` obtained
from the device, and the counters of the pool. Device addresses are numbers,
`0` being `nullptr`; `MemBuf *` and `MemBlock *` are pointers into a `Heap`.

Left out: `owner_name_` and `alloc_type_` of a buffer and the string dumps,
which no decision of the pool reads.
-/

namespace Ccbase.Memory

open Ccbase.Lib

/-- Alloc memory aligned according to 512 bytes. -/
def kDynamicMemAlignSize : Nat := 512

/-- The minimum unit size (1G) of memory block used for dynamic extend. -/
def kDynamicMemAllocUnitSize : Nat := 1024 * 2 ^ 20

def kGBToByte : Nat := 1024 * 2 ^ 20

def kMaxUsedMemSize : Nat := 58 * kGBToByte

/-- `std::unordered_map`. -/
abbrev UMap (κ ν : Type) : Type := AList fun _ : κ => ν

/-- The status of memory buf. -/
inductive MemBufStatus where
  | idle
  | used
  | eagerFree
  | usedByEvent
  deriving DecidableEq, Repr

/-! ## `EventBase` -/

/-- A `DeviceEventPtr`; the pool stores it and never looks at it. -/
abbrev DeviceEvent : Type := Nat

/-- The events recorded on a buffer: for each user stream the list of
`<task_id_on_stream, event>`, in the order of recording. -/
structure EventBase where
  events : Option (UMap Nat (List (Int × DeviceEvent))) := none

namespace EventBase

def recordEvent (e : EventBase) (taskIdOnStream : Int) (userStreamId : Nat)
    (event : DeviceEvent) : EventBase :=
  let events := e.events.getD ∅
  let eventList := (events.lookup userStreamId).getD []
  { events := some (events.insert userStreamId (eventList ++ [(taskIdOnStream, event)])) }

/-- `task_id_on_stream` is a `uint32_t` here. -/
def waitEvent (e : EventBase) (taskIdOnStream : Nat) (userStreamId : Nat) :
    Bool × EventBase :=
  match e.events with
  | none => (false, e)
  | some events =>
      match events.lookup userStreamId with
      | none => (false, e)
      | some eventList =>
          -- pop all elements in the list that are not bigger than the task id
          match eventList.dropWhile (fun ev => decide (ev.1 ≤ (taskIdOnStream : Int))) with
          | [] => (true, { events := some (events.erase userStreamId) })
          | ev :: rest => (true, { events := some (events.insert userStreamId (ev :: rest)) })

def isEventNotUsed (e : EventBase) : Bool :=
  match e.events with
  | none => true
  | some events => events.entries.isEmpty

/-- Every list is drained and its entry erased, so the map ends up empty. -/
def syncAllEvents (e : EventBase) : Bool × EventBase :=
  if e.isEventNotUsed then (false, e) else (true, { events := some ∅ })

/-- The events of one user stream that are still pending. -/
def pending (e : EventBase) (userStreamId : Nat) : List (Int × DeviceEvent) :=
  match e.events with
  | none => []
  | some events => (events.lookup userStreamId).getD []

end EventBase

/-! ## `MemBuf`, `MemBlock` and `MemStat` -/

/-- Memory buf is the smallest operation object of dynamic memory pool. -/
structure MemBuf extends EventBase where
  prev : Option Nat := none
  next : Option Nat := none
  size : Nat
  addr : Nat
  streamId : Nat
  memBlock : Nat
  status : MemBufStatus

instance : Node MemBuf where
  prev b := b.prev
  next b := b.next
  lo b := b.addr
  len b := b.size
  setPrev q b := { b with prev := q }
  setNext q b := { b with next := q }
  prev_setPrev _ _ := rfl
  next_setPrev _ _ := rfl
  lo_setPrev _ _ := rfl
  len_setPrev _ _ := rfl
  prev_setNext _ _ := rfl
  next_setNext _ _ := rfl
  lo_setNext _ _ := rfl
  len_setNext _ _ := rfl

@[simp] theorem MemBuf.node_prev (b : MemBuf) : Node.prev b = b.prev := rfl

@[simp] theorem MemBuf.node_next (b : MemBuf) : Node.next b = b.next := rfl

@[simp] theorem MemBuf.node_lo (b : MemBuf) : Node.lo b = b.addr := rfl

@[simp] theorem MemBuf.node_len (b : MemBuf) : Node.len b = b.size := rfl

/-- `Link`: the buffer at `p` is put between `prev` and `next`. -/
def linkMemBuf (bufs : Heap MemBuf) (p : Nat) (prev next : Option Nat) : Heap MemBuf :=
  let bufs := match prev with
    | some q => (bufs.modify q fun b => { b with next := some p }).modify p
        fun b => { b with prev := some q }
    | none => bufs
  match next with
  | some q => (bufs.modify q fun b => { b with prev := some p }).modify p
      fun b => { b with next := some q }
  | none => bufs

structure MemBlock where
  size : Nat
  addr : Nat
  streamId : Nat
  minAddr : Nat := 0
  maxAddr : Nat := 0

namespace MemBlock

def updateBorderAddr (blk : MemBlock) (b : MemBuf) : MemBlock :=
  { blk with
    minAddr := if blk.minAddr = 0 then b.addr else min blk.minAddr b.addr
    maxAddr := max blk.maxAddr (b.addr + b.size) }

end MemBlock

structure MemStat where
  usedSize : Nat := 0
  peakSize : Nat := 0
  allocSize : Nat := 0
  usedByEventSize : Nat := 0
  eagerFreeSize : Nat := 0
  tempUsedSize : Nat := 0
  tempUsedByEventSize : Nat := 0
  tempPeakSize : Nat := 0
  tempAllocSize : Nat := 0
  deriving DecidableEq, Repr

namespace MemStat

def reset : MemStat := {}

def idleSize (st : MemStat) : Nat := subSize st.allocSize st.usedSize

def updatePeakSize (st : MemStat) : MemStat :=
  { st with
    peakSize := max st.peakSize st.usedSize
    tempPeakSize :=
      if st.tempUsedSize < st.usedSize
      then max st.tempPeakSize (subSize st.usedSize st.tempUsedSize)
      else st.tempPeakSize }

end MemStat

/-- The real size by memory alloc aligned. -/
def alignMemorySize (size : Nat) : Nat :=
  if size = 0 then kDynamicMemAlignSize
  else mulSize (subSize (addSize size kDynamicMemAlignSize) 1 / kDynamicMemAlignSize)
    kDynamicMemAlignSize

/-- Up to the last multiple of 512 below `2 ^ 64` the alignment rounds up. -/
theorem alignMemorySize_ge {size : Nat} (h : size + kDynamicMemAlignSize ≤ sizeBound) :
    size ≤ alignMemorySize size ∧ 0 < alignMemorySize size := by
  have hk : kDynamicMemAlignSize = 512 := rfl
  have hM : sizeBound = 18446744073709551616 := rfl
  unfold alignMemorySize
  split
  · subst_vars
    exact ⟨Nat.zero_le _, by decide⟩
  · rename_i hpos
    rcases Nat.lt_or_ge (size + kDynamicMemAlignSize) sizeBound with hlt | hge
    · have hdiv := Nat.div_add_mod (size + 512 - 1) 512
      have hmod := Nat.mod_lt (size + 512 - 1) (show 512 > 0 by decide)
      rw [addSize_eq hlt, subSize_eq hlt (by omega), mulSize_eq (by rw [hk, hM]; omega), hk]
      omega
    · have hsize : size = 18446744073709551104 := by omega
      subst hsize
      decide

end Ccbase.Memory
