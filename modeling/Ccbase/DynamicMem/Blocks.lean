import Ccbase.Lib.Tiling
import Mathlib.Data.List.TakeWhile

/-!
# Memory blocks

`DynamicMemBlock` and the list `mem_block_list_`, for any type of bufs with a
device address. A buf lives in the map of its block and is never moved, and no
two bufs have one address, so the address stands for the pointer: reading or
writing through a pointer goes to the buf with that address, wherever it is.

Everything that is proved about the list is about one place in it: a block
between other blocks, with a buf between other bufs.
-/

namespace Ccbase.DynamicMem

open Ccbase.Lib

/-- `block_all_mem_buf_map_` are the bufs in the order of their addresses. -/
structure DynamicMemBlock (β : Type) where
  deviceAddrBase : Nat
  memBlockSize : Nat
  streamId : Nat
  blockAllMemBufMap : List β
  deriving DecidableEq, Repr

variable {β : Type}

/-! ## The list of blocks -/

/-- The block before `upper_bound(device_addr)`. -/
def findMemBlock (deviceAddr : Nat) (blocks : List (DynamicMemBlock β)) :
    Option (DynamicMemBlock β) :=
  (blocks.takeWhile fun b => !decide (deviceAddr < b.deviceAddrBase)).getLast?

/-- Insertion at `upper_bound` of the address of the block. -/
def insertMemBlock (block : DynamicMemBlock β) :
    List (DynamicMemBlock β) → List (DynamicMemBlock β)
  | [] => [block]
  | b :: bs =>
      if block.deviceAddrBase < b.deviceAddrBase then block :: b :: bs
      else b :: insertMemBlock block bs

/-- A write through the pointer to the block at `base`. -/
def writeBlock (base : Nat) (f : DynamicMemBlock β → DynamicMemBlock β)
    (blocks : List (DynamicMemBlock β)) : List (DynamicMemBlock β) :=
  blocks.map fun b => if b.deviceAddrBase = base then f b else b

def DynamicMemBlock.setBufs (bufs : List β) (b : DynamicMemBlock β) : DynamicMemBlock β :=
  { b with blockAllMemBufMap := bufs }

/-- All bufs of a list of blocks. -/
def allBufs (blocks : List (DynamicMemBlock β)) : List β :=
  blocks.flatMap DynamicMemBlock.blockAllMemBufMap

variable (addr : β → Nat)

/-- The buf that the pointer to `p` points to. -/
def readBuf (p : Nat) (blocks : List (DynamicMemBlock β)) : Option β :=
  (allBufs blocks).find? fun x => decide (addr x = p)

/-- A write through the pointer to the buf at `p`. -/
def writeBuf (p : Nat) (f : β → β) (blocks : List (DynamicMemBlock β)) :
    List (DynamicMemBlock β) :=
  blocks.map fun b =>
    b.setBufs (b.blockAllMemBufMap.map fun x => if addr x = p then f x else x)

/-- `emplace` in the map of a block. -/
def emplaceBuf (x : β) : List β → List β
  | [] => [x]
  | y :: ys =>
      if addr y < addr x then y :: emplaceBuf x ys
      else if addr y = addr x then y :: ys
      else x :: y :: ys

/-- `find` in the map of a block: the iterator, with what is before and behind
it. -/
def findBuf (p : Nat) : List β → Option (List β × β × List β)
  | [] => none
  | y :: ys =>
      if addr y = p then some ([], y, ys)
      else (findBuf p ys).map fun it => (y :: it.1, it.2)

/-! ## Blocks that are tiled -/

variable {addr} {size : β → Nat}

/-- The blocks are apart and in order, and each is tiled by its bufs. -/
structure Placed (addr size : β → Nat) (blocks : List (DynamicMemBlock β)) : Prop where
  apart : blocks.Pairwise fun b b' => b.deviceAddrBase + b.memBlockSize ≤ b'.deviceAddrBase
  tiles : ∀ b ∈ blocks,
    Tiles addr size b.deviceAddrBase b.blockAllMemBufMap (b.deviceAddrBase + b.memBlockSize)
  pos : ∀ b ∈ blocks, 0 < b.memBlockSize

/-- One place in the list: the buf `x`, with `l` before and `r` behind it in its
block, and with the blocks `L` before and `R` behind that. -/
structure At (blocks L : List (DynamicMemBlock β)) (blk : DynamicMemBlock β)
    (R : List (DynamicMemBlock β)) (l : List β) (x : β) (r : List β) : Prop where
  blocks : blocks = L ++ blk :: R
  bufs : blk.blockAllMemBufMap = l ++ x :: r

/-- Where a buf is. -/
theorem exists_at {blocks : List (DynamicMemBlock β)} {blk : DynamicMemBlock β} {x : β}
    (hblk : blk ∈ blocks) (hx : x ∈ blk.blockAllMemBufMap) :
    ∃ L R l r, At blocks L blk R l x r := by
  obtain ⟨L, R, hblocks⟩ := List.append_of_mem hblk
  obtain ⟨l, r, hbufs⟩ := List.append_of_mem hx
  exact ⟨L, R, l, r, hblocks, hbufs⟩

theorem mem_allBufs {blocks : List (DynamicMemBlock β)} {x : β} :
    x ∈ allBufs blocks ↔ ∃ b ∈ blocks, x ∈ b.blockAllMemBufMap :=
  List.mem_flatMap

theorem allBufs_append (bs bs' : List (DynamicMemBlock β)) :
    allBufs (bs ++ bs') = allBufs bs ++ allBufs bs' :=
  List.flatMap_append ..

theorem allBufs_cons (b : DynamicMemBlock β) (bs : List (DynamicMemBlock β)) :
    allBufs (b :: bs) = b.blockAllMemBufMap ++ allBufs bs :=
  List.flatMap_cons ..

namespace Placed

variable {blocks L R : List (DynamicMemBlock β)} {blk : DynamicMemBlock β} {l r : List β} {x : β}

/-- Every buf is in the range of its block. -/
theorem inside (h : Placed addr size blocks) (hblk : blk ∈ blocks)
    (hx : x ∈ blk.blockAllMemBufMap) :
    blk.deviceAddrBase ≤ addr x ∧ addr x + size x ≤ blk.deviceAddrBase + blk.memBlockSize ∧
      0 < size x :=
  (h.tiles blk hblk).bounds hx

theorem tiles_at (h : Placed addr size blocks) (hat : At blocks L blk R l x r) :
    Tiles addr size blk.deviceAddrBase (l ++ x :: r)
      (blk.deviceAddrBase + blk.memBlockSize) := by
  rw [← hat.bufs]
  exact h.tiles blk (by rw [hat.blocks]; simp)

/-- The blocks before and behind one of them. -/
theorem apart_at (h : Placed addr size blocks) (hat : At blocks L blk R l x r) :
    (∀ b ∈ L, b.deviceAddrBase + b.memBlockSize ≤ blk.deviceAddrBase) ∧
      ∀ b ∈ R, blk.deviceAddrBase + blk.memBlockSize ≤ b.deviceAddrBase := by
  have hpair := h.apart
  rw [hat.blocks, List.pairwise_append] at hpair
  obtain ⟨-, hR, hcross⟩ := hpair
  exact ⟨fun b hb => hcross b hb blk (List.mem_cons_self ..),
    (List.pairwise_cons.mp hR).1⟩

theorem mem_at (hat : At blocks L blk R l x r) : blk ∈ blocks := by
  rw [hat.blocks]
  simp

theorem mem_buf_at (hat : At blocks L blk R l x r) : x ∈ blk.blockAllMemBufMap := by
  rw [hat.bufs]
  simp

/-- Every other buf is at another address. -/
theorem addr_ne (h : Placed addr size blocks) (hat : At blocks L blk R l x r) :
    (∀ b ∈ L, ∀ y ∈ b.blockAllMemBufMap, addr y ≠ addr x) ∧
      (∀ b ∈ R, ∀ y ∈ b.blockAllMemBufMap, addr y ≠ addr x) ∧
      (∀ y ∈ l, addr y ≠ addr x) ∧ ∀ y ∈ r, addr y ≠ addr x := by
  obtain ⟨hL, hR⟩ := h.apart_at hat
  have hx := h.inside (mem_at hat) (mem_buf_at hat)
  obtain ⟨hl, hr⟩ := (h.tiles_at hat).addr_ne
  refine ⟨fun b hb y hy => ?_, fun b hb y hy => ?_, fun y hy => ?_, fun y hy => ?_⟩
  · have hmem : b ∈ blocks := by rw [hat.blocks]; simp [hb]
    have hin := h.inside hmem hy
    have := hL b hb
    omega
  · have hmem : b ∈ blocks := by rw [hat.blocks]; simp [hb]
    have hin := h.inside hmem hy
    have := hR b hb
    omega
  · have := hl y hy
    omega
  · have := hr y hy
    omega

/-- All bufs, in the order of the list, are apart. -/
theorem pairwise_allBufs (h : Placed addr size blocks) :
    (allBufs blocks).Pairwise fun x y => addr x + size x ≤ addr y := by
  refine List.pairwise_flatMap.mpr ⟨fun b hb => (h.tiles b hb).pairwise, ?_⟩
  refine h.apart.imp_of_mem ?_
  intro b b' hb hb' hle x hx y hy
  have hx := h.inside hb hx
  have hy := h.inside hb' hy
  omega

theorem eq_or_disjoint (h : Placed addr size blocks) {x y : β} (hx : x ∈ allBufs blocks)
    (hy : y ∈ allBufs blocks) :
    x = y ∨ addr x + size x ≤ addr y ∨ addr y + size y ≤ addr x := by
  refine List.Pairwise.forall_of_forall_of_flip (R := fun x y =>
    x = y ∨ addr x + size x ≤ addr y ∨ addr y + size y ≤ addr x) (fun _ _ => Or.inl rfl)
    (h.pairwise_allBufs.imp fun hle => Or.inr (Or.inl hle))
    (h.pairwise_allBufs.imp fun hle => Or.inr (Or.inr hle)) hx hy

end Placed

/-! ## Reads and writes at a place -/

section Place

variable {blocks L R : List (DynamicMemBlock β)} {blk : DynamicMemBlock β} {l r : List β} {x : β}

theorem allBufs_at (hat : At blocks L blk R l x r) :
    allBufs blocks = allBufs L ++ (l ++ x :: r) ++ allBufs R := by
  rw [hat.blocks, allBufs_append, allBufs_cons, hat.bufs, ← List.append_assoc]

theorem readBuf_at (h : Placed addr size blocks) (hat : At blocks L blk R l x r) :
    readBuf addr (addr x) blocks = some x := by
  obtain ⟨hL, -, hl, -⟩ := h.addr_ne hat
  have hbefore : ∀ y ∈ allBufs L ++ l, ¬ decide (addr y = addr x) = true := by
    intro y hy
    rcases List.mem_append.mp hy with hy | hy
    · obtain ⟨b, hb, hy⟩ := mem_allBufs.mp hy
      simpa using hL b hb y hy
    · simpa using hl y hy
  rw [readBuf, allBufs_at hat,
    show allBufs L ++ (l ++ x :: r) ++ allBufs R =
      (allBufs L ++ l) ++ (x :: r ++ allBufs R) by simp,
    List.find?_append, List.find?_eq_none.mpr hbefore, Option.none_or, List.cons_append,
    List.find?_cons_of_pos (by simp)]

/-- The bufs of blocks that do not have the address keep their values. -/
theorem writeBuf_of_ne {p : Nat} {f : β → β} {bs : List (DynamicMemBlock β)}
    (h : ∀ b ∈ bs, ∀ y ∈ b.blockAllMemBufMap, addr y ≠ p) : writeBuf addr p f bs = bs := by
  rw [writeBuf]
  refine (List.map_congr_left ?_).trans (List.map_id _)
  intro b hb
  have hmap : (b.blockAllMemBufMap.map fun x => if addr x = p then f x else x) =
      b.blockAllMemBufMap := by
    refine (List.map_congr_left ?_).trans (List.map_id _)
    intro y hy
    rw [if_neg (h b hb y hy)]
    rfl
  rw [hmap]
  rfl

theorem writeBuf_at (h : Placed addr size blocks) (hat : At blocks L blk R l x r)
    (f : β → β) : writeBuf addr (addr x) f blocks = L ++ blk.setBufs (l ++ f x :: r) :: R := by
  obtain ⟨hL, hR, hl, hr⟩ := h.addr_ne hat
  have hkeep : ∀ {ys : List β}, (∀ y ∈ ys, addr y ≠ addr x) →
      (ys.map fun y => if addr y = addr x then f y else y) = ys := by
    intro ys hys
    refine (List.map_congr_left ?_).trans (List.map_id _)
    intro y hy
    rw [if_neg (hys y hy)]
    rfl
  have hL' := writeBuf_of_ne (f := f) hL
  have hR' := writeBuf_of_ne (f := f) hR
  rw [writeBuf] at hL' hR'
  rw [writeBuf, hat.blocks, List.map_append, List.map_cons, hL', hR', hat.bufs, List.map_append,
    List.map_cons, hkeep hl, hkeep hr, if_pos rfl]

/-- The last element of a list before those that fail a test. -/
theorem getLast?_takeWhile_middle {α : Type} {f : α → Bool} {xs ys : List α} {z : α}
    (hxs : ∀ y ∈ xs, f y = true) (hz : f z = true) (hys : ∀ y ∈ ys.head?, f y = false) :
    ((xs ++ z :: ys).takeWhile f).getLast? = some z := by
  have hbefore : ∀ y ∈ xs ++ [z], f y = true := by
    intro y hy
    rcases List.mem_append.mp hy with hy | hy
    · exact hxs y hy
    · obtain rfl := List.mem_singleton.mp hy
      exact hz
  have hstop : ys.takeWhile f = [] := by
    cases ys with
    | nil => rfl
    | cons y ys =>
        rw [List.takeWhile_cons_of_neg]
        simp [hys y rfl]
  rw [show xs ++ z :: ys = (xs ++ [z]) ++ ys by simp, List.takeWhile_append_of_pos hbefore, hstop,
    List.append_nil, List.getLast?_concat]

/-- The block that an address is in. -/
theorem findMemBlock_inside {p : Nat} (h : Placed addr size blocks)
    (hblocks : blocks = L ++ blk :: R)
    (hlo : blk.deviceAddrBase ≤ p) (hhi : p < blk.deviceAddrBase + blk.memBlockSize) :
    findMemBlock p blocks = some blk := by
  have hpair := h.apart
  rw [hblocks, List.pairwise_append] at hpair
  obtain ⟨-, hR, hcross⟩ := hpair
  rw [findMemBlock, hblocks]
  refine getLast?_takeWhile_middle (fun b hb => ?_) ?_ fun b hb => ?_
  · have := hcross b hb blk (List.mem_cons_self ..)
    rw [Bool.not_eq_true', decide_eq_false_iff_not]
    omega
  · rw [Bool.not_eq_true', decide_eq_false_iff_not]
    omega
  · have := (List.pairwise_cons.mp hR).1 b (List.mem_of_mem_head? hb)
    rw [Bool.not_eq_false', decide_eq_true_eq]
    omega

theorem findMemBlock_at (h : Placed addr size blocks) (hat : At blocks L blk R l x r) :
    findMemBlock (addr x) blocks = some blk := by
  have hx := h.inside (Placed.mem_at hat) (Placed.mem_buf_at hat)
  exact findMemBlock_inside h hat.blocks hx.1 (by omega)

theorem base_le_of_findMemBlock {p : Nat} {b : DynamicMemBlock β} {bs : List (DynamicMemBlock β)}
    (h : findMemBlock p bs = some b) : b.deviceAddrBase ≤ p := by
  have htest := List.mem_takeWhile_imp (List.mem_of_getLast? h)
  simpa using htest

theorem mem_of_findMemBlock {p : Nat} {b : DynamicMemBlock β} {bs : List (DynamicMemBlock β)}
    (h : findMemBlock p bs = some b) : b ∈ bs :=
  (List.takeWhile_sublist _).mem (List.mem_of_getLast? h)

/-- Every other block is at another address. -/
theorem Placed.base_ne (h : Placed addr size blocks) (hat : At blocks L blk R l x r) :
    (∀ b ∈ L, b.deviceAddrBase ≠ blk.deviceAddrBase) ∧
      ∀ b ∈ R, b.deviceAddrBase ≠ blk.deviceAddrBase := by
  obtain ⟨hL, hR⟩ := h.apart_at hat
  have hpos := h.pos blk (Placed.mem_at hat)
  refine ⟨fun b hb => ?_, fun b hb => ?_⟩
  · have := hL b hb
    have := h.pos b (by rw [hat.blocks]; simp [hb])
    omega
  · have := hR b hb
    omega

theorem writeBlock_middle {base : Nat} (f : DynamicMemBlock β → DynamicMemBlock β)
    (hblk : blk.deviceAddrBase = base) (hL : ∀ b ∈ L, b.deviceAddrBase ≠ base)
    (hR : ∀ b ∈ R, b.deviceAddrBase ≠ base) :
    writeBlock base f (L ++ blk :: R) = L ++ f blk :: R := by
  have hkeep : ∀ {bs : List (DynamicMemBlock β)}, (∀ b ∈ bs, b.deviceAddrBase ≠ base) →
      (bs.map fun b => if b.deviceAddrBase = base then f b else b) = bs := by
    intro bs hbs
    refine (List.map_congr_left ?_).trans (List.map_id _)
    intro b hb
    rw [if_neg (hbs b hb)]
    rfl
  rw [writeBlock, List.map_append, List.map_cons, if_pos hblk, hkeep hL, hkeep hR]

/-- A write to a block of which the bufs have been written. -/
theorem writeBlock_at (h : Placed addr size blocks) (hat : At blocks L blk R l x r)
    (f : DynamicMemBlock β → DynamicMemBlock β) (bufs : List β) :
    writeBlock blk.deviceAddrBase f (L ++ blk.setBufs bufs :: R) =
      L ++ f (blk.setBufs bufs) :: R :=
  writeBlock_middle f rfl (h.base_ne hat).1 (h.base_ne hat).2

theorem findBuf_middle {p : Nat} (hx : addr x = p) (hl : ∀ y ∈ l, addr y ≠ p) :
    findBuf addr p (l ++ x :: r) = some (l, x, r) := by
  induction l with
  | nil =>
      rw [List.nil_append, findBuf, if_pos hx]
  | cons y l ih =>
      rw [List.cons_append, findBuf, if_neg (hl y (List.mem_cons_self ..)),
        ih fun z hz => hl z (List.mem_cons_of_mem y hz)]
      rfl

theorem findBuf_none {p : Nat} {ys : List β} (h : ∀ y ∈ ys, addr y ≠ p) :
    findBuf addr p ys = none := by
  induction ys with
  | nil => rfl
  | cons y ys ih =>
      rw [findBuf, if_neg (h y (List.mem_cons_self ..)),
        ih fun z hz => h z (List.mem_cons_of_mem y hz)]
      rfl

/-- What `find` returns is a place in the list. -/
theorem findBuf_eq_some {p : Nat} {ys : List β} : ∀ {l : List β} {x : β} {r : List β},
    findBuf addr p ys = some (l, x, r) → ys = l ++ x :: r ∧ addr x = p := by
  induction ys with
  | nil =>
      intro l x r h
      cases h
  | cons y ys ih =>
      intro l x r h
      rw [findBuf] at h
      split at h
      · rename_i hy
        cases h
        exact ⟨rfl, hy⟩
      · obtain ⟨⟨l', x', r'⟩, hfind, heq⟩ := Option.map_eq_some_iff.mp h
        cases heq
        obtain ⟨hys, hx⟩ := ih hfind
        exact ⟨by rw [hys]; rfl, hx⟩

theorem findBuf_at (h : Placed addr size blocks) (hat : At blocks L blk R l x r) :
    findBuf addr (addr x) blk.blockAllMemBufMap = some (l, x, r) := by
  rw [hat.bufs]
  exact findBuf_middle rfl (h.addr_ne hat).2.2.1

/-- A new buf between others. -/
theorem emplaceBuf_between {new : β} (hl : ∀ y ∈ l, addr y < addr new)
    (hr : ∀ y ∈ r, addr new < addr y) : emplaceBuf addr new (l ++ r) = l ++ new :: r := by
  induction l with
  | nil =>
      cases r with
      | nil => rfl
      | cons y r =>
          have hy := hr y (List.mem_cons_self ..)
          rw [List.nil_append, emplaceBuf, if_neg (by omega), if_neg (by omega)]
          rfl
  | cons y l ih =>
      rw [List.cons_append, emplaceBuf, if_pos (hl y (List.mem_cons_self ..)),
        ih fun z hz => hl z (List.mem_cons_of_mem y hz)]
      rfl

/-- A new buf between `x` and the bufs behind it. -/
theorem emplaceBuf_middle {new : β} (hl : ∀ y ∈ l, addr y < addr new) (hx : addr x < addr new)
    (hr : ∀ y ∈ r, addr new < addr y) : emplaceBuf addr new (l ++ x :: r) = l ++ x :: new :: r := by
  have hbetween := emplaceBuf_between (l := l ++ [x]) (fun y hy => ?_) hr
  · simpa using hbetween
  · rcases List.mem_append.mp hy with hy | hy
    · exact hl y hy
    · obtain rfl := List.mem_singleton.mp hy
      exact hx

/-- New bufs that tile a gap between others. -/
theorem emplaceAll_between {bufs : List β} : ∀ {l : List β} {a z : Nat},
    Tiles addr size a bufs z → (∀ y ∈ l, addr y < a) → (∀ y ∈ r, z ≤ addr y) →
    bufs.foldl (fun map buf => emplaceBuf addr buf map) (l ++ r) = l ++ bufs ++ r := by
  induction bufs with
  | nil =>
      intro l a z _ _ _
      simp
  | cons b bufs ih =>
      intro l a z htiles hl hr
      obtain ⟨rfl, hpos, htail⟩ := htiles
      have hle := htail.le
      rw [List.foldl_cons, emplaceBuf_between hl fun y hy => by have := hr y hy; omega,
        show l ++ b :: r = (l ++ [b]) ++ r by simp, ih htail ?_ hr]
      · simp
      · intro y hy
        rcases List.mem_append.mp hy with hy | hy
        · have := hl y hy
          omega
        · obtain rfl := List.mem_singleton.mp hy
          omega

/-- The bufs of one block are replaced by others that tile it. -/
theorem Placed.setBufs (h : Placed addr size blocks) (hat : At blocks L blk R l x r)
    {bufs : List β}
    (htiles : Tiles addr size blk.deviceAddrBase bufs (blk.deviceAddrBase + blk.memBlockSize)) :
    Placed addr size (L ++ blk.setBufs bufs :: R) where
  apart := by
    have hpair := h.apart
    rw [hat.blocks, List.pairwise_append, List.pairwise_cons] at hpair
    obtain ⟨hL, ⟨hblk, hR⟩, hcross⟩ := hpair
    rw [List.pairwise_append, List.pairwise_cons]
    refine ⟨hL, ⟨hblk, hR⟩, ?_⟩
    intro b hb b' hb'
    rcases List.mem_cons.mp hb' with rfl | hb'
    · exact hcross b hb blk (List.mem_cons_self ..)
    · exact hcross b hb b' (List.mem_cons_of_mem blk hb')
  tiles := by
    intro b hb
    rcases List.mem_append.mp hb with hb | hb
    · exact h.tiles b (by rw [hat.blocks]; simp [hb])
    · rcases List.mem_cons.mp hb with rfl | hb
      · exact htiles
      · exact h.tiles b (by rw [hat.blocks]; simp [hb])
  pos := by
    intro b hb
    rcases List.mem_append.mp hb with hb | hb
    · exact h.pos b (by rw [hat.blocks]; simp [hb])
    · rcases List.mem_cons.mp hb with rfl | hb
      · exact h.pos blk (Placed.mem_at hat)
      · exact h.pos b (by rw [hat.blocks]; simp [hb])

end Place

/-! ## A new block -/

theorem perm_insertMemBlock (block : DynamicMemBlock β) (bs : List (DynamicMemBlock β)) :
    (insertMemBlock block bs).Perm (block :: bs) := by
  induction bs with
  | nil => exact List.Perm.refl _
  | cons b bs ih =>
      rw [insertMemBlock]
      split
      · exact List.Perm.refl _
      · exact (ih.cons b).trans (List.Perm.swap _ _ _)

/-- Two ranges that do not meet. -/
def Apart (b b' : DynamicMemBlock β) : Prop :=
  b.deviceAddrBase + b.memBlockSize ≤ b'.deviceAddrBase ∨
    b'.deviceAddrBase + b'.memBlockSize ≤ b.deviceAddrBase

theorem Apart.symm {b b' : DynamicMemBlock β} (h : Apart b b') : Apart b' b := Or.symm h

/-- A block that meets no other goes to its place. -/
theorem Placed.insert {blocks : List (DynamicMemBlock β)} {block : DynamicMemBlock β}
    (h : Placed addr size blocks) (hpos : 0 < block.memBlockSize)
    (htiles : Tiles addr size block.deviceAddrBase block.blockAllMemBufMap
      (block.deviceAddrBase + block.memBlockSize))
    (hapart : ∀ b ∈ blocks, Apart block b) : Placed addr size (insertMemBlock block blocks) where
  apart := by
    have hpair := h.apart
    have hposs := h.pos
    clear h htiles
    induction blocks with
    | nil => exact List.pairwise_singleton _ _
    | cons b bs ih =>
        obtain ⟨hb, hbs⟩ := List.pairwise_cons.mp hpair
        have hpb := hposs b (List.mem_cons_self ..)
        rw [insertMemBlock]
        split
        · rename_i hlt
          refine List.pairwise_cons.mpr ⟨?_, hpair⟩
          have hfirst : block.deviceAddrBase + block.memBlockSize ≤ b.deviceAddrBase := by
            rcases hapart b (List.mem_cons_self ..) with h' | h'
            · exact h'
            · omega
          intro b' hb'
          rcases List.mem_cons.mp hb' with rfl | hb'
          · exact hfirst
          · have := hb b' hb'
            omega
        · rename_i hge
          refine List.pairwise_cons.mpr ⟨?_, ih (fun b' hb' => hapart b' (by simp [hb'])) hbs
            fun b' hb' => hposs b' (by simp [hb'])⟩
          intro b' hb'
          rcases List.mem_cons.mp ((perm_insertMemBlock block bs).mem_iff.mp hb') with rfl | hb'
          · rcases hapart b (List.mem_cons_self ..) with h' | h'
            · omega
            · exact h'
          · exact hb b' hb'
  tiles := by
    intro b hb
    rcases List.mem_cons.mp ((perm_insertMemBlock block blocks).mem_iff.mp hb) with rfl | hb
    · exact htiles
    · exact h.tiles b hb
  pos := by
    intro b hb
    rcases List.mem_cons.mp ((perm_insertMemBlock block blocks).mem_iff.mp hb) with rfl | hb
    · exact hpos
    · exact h.pos b hb

end Ccbase.DynamicMem
