import Ccbase.Memory.Basic
import Ccbase.Lib.OrdSet
import Mathlib.Data.Prod.Lex

/-!
# `MemBufAllocator`

The best-fit allocator of one stream. It owns a list of blocks; each block is
tiled by a chain of buffers linked through `prev` and `next`, and the buffers
that may be handed out are kept in two sets ordered by size and address: the
idle ones and the eagerly freed ones, whose physical memory has to be mapped
again before use.

The allocator talks to the pool and the device through its four callbacks,
here functions on an environment `ε`. A callback answers `none` when the call
does not come back (an exception leaves it, or a loop in it does not end);
then the method that made the call does not come back either.
-/

namespace Ccbase.Memory

open Ccbase.Lib

/-- The `std::function` members of an allocator. -/
structure Callbacks (ε : Type) where
  /-- The block the device hands out for a size, `none` inside for `nullptr`. -/
  memBlockExpander : Nat → ε → Option (Option MemBlock × ε)
  memBlockCleaner : MemBlock → ε → Option (Bool × ε)
  memMapper : Nat → Nat → ε → Option (Nat × ε)
  memEagerFreer : Nat → Nat → ε → Option (Nat × ε)

structure MemBufAllocator where
  enableEagerFree : Bool
  isPersistent : Bool
  streamId : Nat
  memBlocks : List Nat := []
  freeMemBufs : List Nat := []
  eagerFreeMemBufs : List Nat := []

/-- What a method of an allocator works on: the allocator, the objects in
memory, and the environment of the callbacks. -/
structure Ctx (ε : Type) where
  alloc : MemBufAllocator
  bufs : Heap MemBuf
  blocks : Heap MemBlock
  env : ε

/-- `MemBufComparator`: by size, then by address. -/
def memBufKey (bufs : Heap MemBuf) (p : Nat) : Lex (Nat × Nat) :=
  match bufs.get p with
  | some b => toLex (b.size, b.addr)
  | none => toLex (0, 0)

namespace MemBufAllocator

def emplaceFree (al : MemBufAllocator) (bufs : Heap MemBuf) (p : Nat) : MemBufAllocator :=
  { al with freeMemBufs := OrdSet.emplace (memBufKey bufs) p al.freeMemBufs }

def emplaceEagerFree (al : MemBufAllocator) (bufs : Heap MemBuf) (p : Nat) :
    MemBufAllocator :=
  { al with eagerFreeMemBufs := OrdSet.emplace (memBufKey bufs) p al.eagerFreeMemBufs }

/-- The set a buffer of the given status is put into. -/
def emplace (al : MemBufAllocator) (bufs : Heap MemBuf) (status : MemBufStatus)
    (p : Nat) : MemBufAllocator :=
  match status with
  | .idle => al.emplaceFree bufs p
  | .eagerFree => al.emplaceEagerFree bufs p
  | _ => al

/-- `erase(prev_buf)`: the comparator decides which element goes. -/
def erase (al : MemBufAllocator) (bufs : Heap MemBuf) (status : MemBufStatus)
    (p : Nat) : MemBufAllocator :=
  match status with
  | .idle =>
      { al with freeMemBufs := OrdSet.erase (memBufKey bufs) (memBufKey bufs p) al.freeMemBufs }
  | .eagerFree =>
      { al with
        eagerFreeMemBufs := OrdSet.erase (memBufKey bufs) (memBufKey bufs p)
          al.eagerFreeMemBufs }
  | _ => al

variable {ε : Type}

/-! ## `Free` -/

/-- The buffer `p` takes the place of its left neighbour `prevBuf` too. -/
def absorbPrev (p : Nat) (prevBuf : MemBuf) (bufs : Heap MemBuf) : Heap MemBuf :=
  let bufs := bufs.modify p fun b => { b with prev := prevBuf.prev }
  let bufs := bufs.modify? prevBuf.prev fun b => { b with next := some p }
  bufs.modify p fun b => { b with addr := prevBuf.addr, size := b.size + prevBuf.size }

def absorbNext (p : Nat) (nextBuf : MemBuf) (bufs : Heap MemBuf) : Heap MemBuf :=
  let bufs := bufs.modify p fun b => { b with next := nextBuf.next }
  let bufs := bufs.modify? nextBuf.next fun b => { b with prev := some p }
  bufs.modify p fun b => { b with size := b.size + nextBuf.size }

/-- Try to merge from prev. -/
def mergePrev (p : Nat) (target : MemBufStatus) (c : Ctx ε) : Ctx ε :=
  match c.bufs.get p with
  | none => c
  | some b =>
      match b.prev with
      | none => c
      | some q =>
          match c.bufs.get q with
          | none => c
          | some prevBuf =>
              if prevBuf.status = target then
                let bufs := absorbPrev p prevBuf c.bufs
                { c with alloc := c.alloc.erase bufs target q, bufs := bufs.delete q }
              else c

/-- Try to merge from next. -/
def mergeNext (p : Nat) (target : MemBufStatus) (c : Ctx ε) : Ctx ε :=
  match c.bufs.get p with
  | none => c
  | some b =>
      match b.next with
      | none => c
      | some q =>
          match c.bufs.get q with
          | none => c
          | some nextBuf =>
              if nextBuf.status = target then
                let bufs := absorbNext p nextBuf c.bufs
                { c with alloc := c.alloc.erase bufs target q, bufs := bufs.delete q }
              else c

/-- The part of `Free` after the event check. -/
def coalesce (p : Nat) (target : MemBufStatus) (c : Ctx ε) : Ctx ε :=
  let c := { c with bufs := c.bufs.modify p fun b => { b with status := target } }
  let c := mergeNext p target (mergePrev p target c)
  { c with alloc := c.alloc.emplace c.bufs target p }

def free (p : Nat) (target : MemBufStatus) (c : Ctx ε) : Bool × Ctx ε :=
  match c.bufs.get p with
  | none => (false, c)
  | some b =>
      if !b.isEventNotUsed then
        -- wait for the event to free
        (false, { c with bufs := c.bufs.modify p fun b => { b with status := .usedByEvent } })
      else (true, coalesce p target c)

/-! ## `Malloc` -/

/-- A new buffer `rest` right behind `candidate`, links only. -/
def linkBehind (candidate : Nat) (b rest : MemBuf) (bufs : Heap MemBuf) : Heap MemBuf :=
  let q := bufs.next
  let bufs := bufs.new rest
  let bufs := match b.next with
    | some n => (bufs.modify n fun x => { x with prev := some q }).modify q
        fun x => { x with next := some n }
    | none => bufs
  let bufs := bufs.modify candidate fun x => { x with next := some q }
  bufs.modify q fun x => { x with prev := some candidate }

/-- What is left of `b` behind its first `size` bytes. -/
def remainingBuf (b : MemBuf) (size : Nat) : MemBuf :=
  { size := b.size - size, addr := b.addr + size, streamId := b.streamId,
    memBlock := b.memBlock, status := b.status }

/-- Try to split mem buf: the end of `candidate` becomes a buffer of its own. -/
def splitMemBuf (candidate size : Nat) (b : MemBuf) (c : Ctx ε) : Ctx ε :=
  let q := c.bufs.next
  let bufs := linkBehind candidate b (remainingBuf b size) c.bufs
  let alloc :=
    if b.status = .idle then c.alloc.emplaceFree bufs q else c.alloc.emplaceEagerFree bufs q
  { c with alloc, bufs := bufs.modify candidate fun x => { x with size := size } }

/-- The candidate gets its status, and its block a new border. -/
def markUsed (candidate : Nat) (c : Ctx ε) : Ctx ε :=
  let bufs := c.bufs.modify candidate fun x => { x with status := .used }
  let blocks := match bufs.get candidate with
    | some x => c.blocks.modify x.memBlock fun blk => blk.updateBorderAddr x
    | none => c.blocks
  { c with bufs, blocks }

/-- The candidate is handed out, split if what is left is worth it. -/
def takeMemBuf (candidate size : Nat) (b : MemBuf) (c : Ctx ε) : Ctx ε :=
  if kDynamicMemAlignSize ≤ b.size - size
  then markUsed candidate (splitMemBuf candidate size b c)
  else markUsed candidate c

/-- How much of a candidate is mapped: all of it unless it is split. -/
def mapSize (b : MemBuf) (size : Nat) : Nat :=
  if kDynamicMemAlignSize ≤ b.size - size then size else b.size

def mapAndSplitMemBuf (cb : Callbacks ε) (candidate size : Nat) (c : Ctx ε) :
    Option (Option Nat × Ctx ε) :=
  match c.bufs.get candidate with
  | none => some (none, c)
  | some b =>
      if b.status = .eagerFree then do
        -- mmap memory first
        let (mappedSize, env) ← cb.memMapper (mapSize b size) b.addr c.env
        let c := { c with env }
        if mappedSize ≠ mapSize b size then
          some (none, { c with alloc := c.alloc.emplaceEagerFree c.bufs candidate })
        else
          some (some candidate, takeMemBuf candidate size b c)
      else
        some (some candidate, takeMemBuf candidate size b c)

def expandBlock (cb : Callbacks ε) (size : Nat) (c : Ctx ε) :
    Option (Option Nat × Ctx ε) := do
  let (memBlock, env) ← cb.memBlockExpander size c.env
  let c := { c with env }
  match memBlock with
  | none => some (none, c)
  | some blk =>
      some (some c.blocks.next,
        { c with
          blocks := c.blocks.new blk
          alloc := { c.alloc with memBlocks := c.alloc.memBlocks ++ [c.blocks.next] } })

/-- The first buffer of a block covers all of it. -/
def blockBuf (blk : MemBlock) (blockPtr : Nat) (enableEagerFree : Bool) : MemBuf :=
  { size := blk.size, addr := blk.addr, streamId := blk.streamId, memBlock := blockPtr,
    status := if enableEagerFree then .eagerFree else .idle }

def mallocExpandBlock (cb : Callbacks ε) (size : Nat) (c : Ctx ε) :
    Option (Option Nat × Ctx ε) := do
  let (memBlock, c) ← expandBlock cb size c
  match memBlock with
  | none => some (none, c)
  | some blockPtr =>
      match c.blocks.get blockPtr with
      | none => some (none, c)
      | some blk =>
          let b := blockBuf blk blockPtr c.alloc.enableEagerFree
          let candidate := c.bufs.next
          let c := { c with bufs := c.bufs.new b }
          if b.size < size then
            let alloc :=
              if b.status = .idle then c.alloc.emplaceFree c.bufs candidate
              else c.alloc.emplaceEagerFree c.bufs candidate
            some (none, { c with alloc })
          else mapAndSplitMemBuf cb candidate size c

def malloc (cb : Callbacks ε) (size : Nat) (c : Ctx ε) : Option (Option Nat × Ctx ε) :=
  -- malloc with expand block first
  if c.alloc.memBlocks.isEmpty then mallocExpandBlock cb size c
  else
    -- `search_key_` has the requested size and a null address
    match OrdSet.lowerBound (memBufKey c.bufs) (toLex (size, 0)) c.alloc.freeMemBufs with
    | some candidate =>
        mapAndSplitMemBuf cb candidate size
          { c with alloc := { c.alloc with freeMemBufs := c.alloc.freeMemBufs.erase candidate } }
    | none =>
        match OrdSet.lowerBound (memBufKey c.bufs) (toLex (size, 0))
            c.alloc.eagerFreeMemBufs with
        | some candidate =>
            mapAndSplitMemBuf cb candidate size
              { c with
                alloc := { c.alloc with
                  eagerFreeMemBufs := c.alloc.eagerFreeMemBufs.erase candidate } }
        | none => some (none, c)

/-! ## Eager free and release -/

/-- Free all idle mem bufs: `Free` with the eager target touches the eager
set only, so the walk over `free_mem_bufs_` sees the set as it was. -/
def eagerFreeAll : List Nat → Nat → Ctx ε → Nat × Ctx ε
  | [], total, c => (total, c)
  | p :: ps, total, c =>
      let size := ((c.bufs.get p).map MemBuf.size).getD 0
      eagerFreeAll ps (addSize total size) (free p .eagerFree c).2

/-- Do eager free on eager free mem bufs. -/
def memEagerFreeAll (cb : Callbacks ε) : List Nat → Nat → Ctx ε → Option (Nat × Ctx ε)
  | [], total, c => some (total, c)
  | p :: ps, total, c =>
      match c.bufs.get p with
      | none => memEagerFreeAll cb ps total c
      | some b => do
          let (n, env) ← cb.memEagerFreer b.addr b.size c.env
          memEagerFreeAll cb ps (addSize total n) { c with env }

def freeIdleMemsByEagerFree (cb : Callbacks ε) (c : Ctx ε) :
    Option ((Nat × Nat) × Ctx ε) := do
  let (eagerFreeSize, c) := eagerFreeAll c.alloc.freeMemBufs 0 c
  let c := { c with alloc := { c.alloc with freeMemBufs := [] } }
  let (realFreeSize, c) ← memEagerFreeAll cb c.alloc.eagerFreeMemBufs 0 c
  some ((eagerFreeSize, realFreeSize), c)

def cleanBlocks (cb : Callbacks ε) : List Nat → Ctx ε → Option (Ctx ε)
  | [], c => some c
  | p :: ps, c =>
      match c.blocks.get p with
      | none => cleanBlocks cb ps c
      | some blk => do
          let (_, env) ← cb.memBlockCleaner blk c.env
          cleanBlocks cb ps { c with env }

/-- `delete` of every pointer of a list. -/
def deleteAll {α : Type} (ps : List Nat) (h : Heap α) : Heap α :=
  ps.foldl (fun h p => h.delete p) h

def releaseDeviceRes (cb : Callbacks ε) (c : Ctx ε) : Option (Ctx ε) := do
  let c ← cleanBlocks cb c.alloc.memBlocks c
  some { c with
    blocks := deleteAll c.alloc.memBlocks c.blocks
    bufs := deleteAll c.alloc.eagerFreeMemBufs (deleteAll c.alloc.freeMemBufs c.bufs)
    alloc := { c.alloc with memBlocks := [], freeMemBufs := [], eagerFreeMemBufs := [] } }

end MemBufAllocator

end Ccbase.Memory
