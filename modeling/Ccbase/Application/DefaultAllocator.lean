import Ccbase.Lib.Heap
import Ccbase.Lib.OrdSet
import Ccbase.Lib.SizeT
import Ccbase.Lib.Run
import Mathlib.Data.Prod.Lex

/-!
# `DefaultAllocator`

Blocks are cut from regions that `MemAlloc` returns. A block that is freed is merged with
the neighbours its links point to if their `status_` says that they are free.

One stream is modelled: `free_blocks_` has one set, and the test of `stream_id_` in `Alloc`
passes. What `1 << 31` is as a `size_t` is a parameter, `unit`, since it does not fit
into `int`; compilers make it `2 ^ 64 - 2 ^ 31`. A call is `none` if it reads a block that has
been deleted; operations on the set may compare with any of its blocks.
-/

namespace Ccbase.Application

open Ccbase.Lib

/-- `status` is 0 if the block is free, 1 if it is used. -/
structure Block where
  addr : Nat
  size : Nat
  status : Nat
  prev : Option Nat := none
  next : Option Nat := none
  deriving DecidableEq, Repr

structure DefaultAllocator where
  blocks : Heap Block
  freeBlocks : List Nat
  totalBlock : Nat → Option Nat

def align (size : Nat) : Nat :=
  if size = 0 then 512 else (size + 512 - 1) % 2 ^ 64 / 512 * 512

/-- `BlockComparator`: by size, then by address. -/
def blockKey (blocks : Heap Block) (p : Nat) : Lex (Nat × Nat) :=
  match blocks.get p with
  | some b => toLex (b.size, b.addr)
  | none => toLex (0, 0)

namespace DefaultAllocator

def minSplitSize : Nat := 512

def new : DefaultAllocator := ⟨Heap.empty, [], fun _ => none⟩

/-- No block of the set is deleted. -/
def Readable (s : DefaultAllocator) : Prop := ∀ p ∈ s.freeBlocks, (s.blocks.get p).isSome

instance (s : DefaultAllocator) : Decidable s.Readable :=
  inferInstanceAs (Decidable (∀ p ∈ s.freeBlocks, (s.blocks.get p).isSome))

/-- `total_block_.emplace`: no effect on an address that is there. -/
def emplaceTotal (s : DefaultAllocator) (addr p : Nat) : DefaultAllocator :=
  match s.totalBlock addr with
  | some _ => s
  | none => { s with totalBlock := Function.update s.totalBlock addr (some p) }

/-- The block that `lower_bound` finds. -/
def lowerBound (s : DefaultAllocator) (size : Nat) : Option Nat :=
  OrdSet.lowerBound (blockKey s.blocks) (toLex (size, 0)) s.freeBlocks

/-- The first half of `Alloc`: a block of the set, or a new region at `fresh`. -/
def takeBlock (unit : Nat) (s : DefaultAllocator) (size fresh : Nat) : Nat × DefaultAllocator :=
  match s.lowerBound size with
  | none =>
      (s.blocks.next,
        { s with blocks := s.blocks.new { addr := fresh, size := unit, status := 0 } }.emplaceTotal
          fresh s.blocks.next)
  | some p => (p, { s with freeBlocks := s.freeBlocks.erase p })

/-- The second half of `Alloc`: what is left of the block becomes a block of its own. -/
def splitBlock (s : DefaultAllocator) (p size : Nat) : Option (Nat × DefaultAllocator) :=
  (s.blocks.get p).map fun block =>
    let remaining := subSize block.size size
    if minSplitSize ≤ remaining then
      let remainingAddr := block.addr + size
      let r := s.blocks.next
      let blocks := (s.blocks.new
        { addr := remainingAddr, size := remaining, status := 1, prev := some p }).modify p
          fun b => { b with next := some r }
      let s := { s with
        blocks := blocks
        freeBlocks := OrdSet.emplace (blockKey blocks) r s.freeBlocks }
      let s := s.emplaceTotal remainingAddr r
      (block.addr, { s with blocks := s.blocks.modify p fun b => { b with size := size } })
    else (block.addr, s)

/-- `fresh` is what `MemAlloc` returns if it is called. -/
def alloc (unit : Nat) (s : DefaultAllocator) (size fresh : Nat) :
    Option (Nat × DefaultAllocator) :=
  if s.Readable then
    let (p, s) := s.takeBlock unit (align size) fresh
    s.splitBlock p (align size)
  else none

/-- `free_blocks.erase`, `total_block_.erase` and `delete` of a neighbour `q`. -/
def drop (s : DefaultAllocator) (q : Nat) (neighbour : Block) : DefaultAllocator where
  blocks := s.blocks.delete q
  freeBlocks := OrdSet.erase (blockKey s.blocks)
    (toLex (neighbour.size, neighbour.addr)) s.freeBlocks
  totalBlock := Function.update s.totalBlock neighbour.addr none

/-- The merge with `prev_block`. -/
def mergePrev (s : DefaultAllocator) (p : Nat) : Option DefaultAllocator :=
  (s.blocks.get p).bind fun block =>
    match block.prev with
    | none => some s
    | some q =>
        (s.blocks.get q).bind fun prevBlock =>
          if prevBlock.status ≠ 0 then some s
          else if s.Readable then
            let s' := s.drop q prevBlock
            some { s' with blocks := s'.blocks.modify p fun b =>
              { b with addr := prevBlock.addr, size := addSize b.size prevBlock.size } }
          else none

/-- The merge with `next_block`. -/
def mergeNext (s : DefaultAllocator) (p : Nat) : Option DefaultAllocator :=
  (s.blocks.get p).bind fun block =>
    match block.next with
    | none => some s
    | some q =>
        (s.blocks.get q).bind fun nextBlock =>
          if nextBlock.status ≠ 0 then some s
          else if s.Readable then
            let s' := s.drop q nextBlock
            some { s' with blocks := s'.blocks.modify p fun b =>
              { b with size := addSize b.size nextBlock.size } }
          else none

/-- `free_blocks.insert`. -/
def insertFree (s : DefaultAllocator) (p : Nat) : Option DefaultAllocator :=
  if s.Readable then
    some { s with freeBlocks := OrdSet.emplace (blockKey s.blocks) p s.freeBlocks }
  else none

def free (s : DefaultAllocator) (addr : Nat) : Option (Bool × DefaultAllocator) :=
  match s.totalBlock addr with
  | none => some (false, s)
  | some p =>
      (s.blocks.get p).bind fun _ =>
        ((mergePrev { s with blocks := s.blocks.modify p fun b => { b with status := 0 } } p).bind
          fun s => (s.mergeNext p).bind fun s => s.insertFree p).map fun s => (true, s)

end DefaultAllocator

end Ccbase.Application
