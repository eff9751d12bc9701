import Ccbase.DynamicMem.BestFit
import Mathlib.Data.List.Chain

/-!
# What holds of a pool

The bufs tile their blocks, no two idle bufs are neighbours, and the index of a
stream has exactly the idle bufs of its blocks, under their sizes. The operations
are specified by what they do at one place: `Taken` for a buf that goes into use,
`Freed` for one that comes back.
-/

namespace Ccbase.DynamicMem

open Ccbase.Lib

/-! ## The index of a stream -/

/-- The map of a stream; a stream that is not there has none. -/
def sizeMapOf (container : OrdMap Nat SizeMapMemBuf) (s : Nat) : SizeMapMemBuf :=
  (container.find? s).getD .empty

theorem sizeMapOf_insert (c : OrdMap Nat SizeMapMemBuf) (s : Nat) (m : SizeMapMemBuf)
    (s' : Nat) : sizeMapOf (c.insert s m) s' = if s' = s then m else sizeMapOf c s' := by
  rw [sizeMapOf, OrdMap.find?_insert]
  split
  · rfl
  · rfl

theorem sizeMapOf_emplace_of_none {c : OrdMap Nat SizeMapMemBuf} {s : Nat}
    (h : c.find? s = none) (m : SizeMapMemBuf) (s' : Nat) :
    sizeMapOf (c.emplace s m) s' = if s' = s then m else sizeMapOf c s' := by
  rw [sizeMapOf, OrdMap.find?_emplace_of_none m h]
  split
  · rfl
  · rfl

theorem getOrCreateSizeMapMemBuf_fst (c : OrdMap Nat SizeMapMemBuf) (s : Nat) :
    (getOrCreateSizeMapMemBuf c s).1 = sizeMapOf c s := by
  rw [getOrCreateSizeMapMemBuf, sizeMapOf]
  cases c.find? s <;> rfl

theorem sizeMapOf_getOrCreate (c : OrdMap Nat SizeMapMemBuf) (s s' : Nat) :
    sizeMapOf (getOrCreateSizeMapMemBuf c s).2 s' = sizeMapOf c s' := by
  rw [getOrCreateSizeMapMemBuf]
  cases h : c.find? s with
  | some m => rfl
  | none =>
      show sizeMapOf (c.emplace s .empty) s' = sizeMapOf c s'
      rw [sizeMapOf_emplace_of_none h]
      split
      · rename_i heq
        rw [heq, sizeMapOf, h]
        rfl
      · rfl

theorem sizeMapOf_addMemBuf (c : OrdMap Nat SizeMapMemBuf) (b : DynamicMemBuf) (s s' : Nat) :
    sizeMapOf (addMemBuf c b s) s' =
      if s' = s then (sizeMapOf c s).emplace b.size b.deviceAddr else sizeMapOf c s' := by
  rw [addMemBuf]
  cases h : c.find? s with
  | some m =>
      show sizeMapOf (c.insert s (m.emplace b.size b.deviceAddr)) s' = _
      rw [sizeMapOf_insert, show sizeMapOf c s = m by rw [sizeMapOf, h]; rfl]
  | none =>
      show sizeMapOf (c.emplace s (MultiMap.empty.emplace b.size b.deviceAddr)) s' = _
      rw [sizeMapOf_emplace_of_none h, show sizeMapOf c s = .empty by rw [sizeMapOf, h]; rfl]

/-- A map with an entry for the buf is there and loses it. -/
theorem removeDeviceMem_of_mem {c : OrdMap Nat SizeMapMemBuf} {size addr s : Nat}
    (h : (size, addr) ∈ (sizeMapOf c s).entries) :
    ∃ c', removeDeviceMem c size addr s = some c' ∧ ∀ s', sizeMapOf c' s' =
      if s' = s then (sizeMapOf c s).eraseFirst fun e => decide (e = (size, addr))
      else sizeMapOf c s' := by
  cases hfind : c.find? s with
  | none =>
      rw [sizeMapOf, hfind] at h
      cases h
  | some m =>
      refine ⟨_, by rw [removeDeviceMem, hfind, Option.map_some], ?_⟩
      intro s'
      rw [sizeMapOf_insert, show sizeMapOf c s = m by rw [sizeMapOf, hfind]; rfl]

/-! ## The invariant -/

/-- The entry of a buf in an index. -/
def DynamicMemBuf.entry (b : DynamicMemBuf) : Nat × Nat := (b.size, b.deviceAddr)

def entriesOf (bufs : List DynamicMemBuf) : List (Nat × Nat) :=
  (bufs.filter fun b => decide (b.status = .idle)).map DynamicMemBuf.entry

/-- The idle bufs of the blocks of a stream. -/
def idleEntries (s : Nat) (blocks : List (DynamicMemBlock DynamicMemBuf)) : List (Nat × Nat) :=
  blocks.flatMap fun b => if b.streamId = s then entriesOf b.blockAllMemBufMap else []

/-- Two neighbours are not both idle. -/
def NotBothIdle (x y : DynamicMemBuf) : Prop := ¬ (x.status = .idle ∧ y.status = .idle)

/-- The blocks are in the address space, and none is at address zero. -/
def InSpace {β : Type} (blocks : List (DynamicMemBlock β)) : Prop :=
  ∀ b ∈ blocks, 0 < b.deviceAddrBase ∧ b.deviceAddrBase + b.memBlockSize ≤ sizeBound

/-- `MngInv m`: what holds of one of the two pools between calls. -/
structure MngInv (m : MemStatusManager) : Prop where
  placed : Placed DynamicMemBuf.deviceAddr DynamicMemBuf.size m.memBlockList
  inSpace : InSpace m.memBlockList
  noEager : ∀ x ∈ allBufs m.memBlockList, x.status ≠ .eagerFree
  coalesced : ∀ b ∈ m.memBlockList, b.blockAllMemBufMap.IsChain NotBothIdle
  indexed : ∀ s, (sizeMapOf m.idleMemBufs s).entries.Perm (idleEntries s m.memBlockList)

theorem entriesOf_append (xs ys : List DynamicMemBuf) :
    entriesOf (xs ++ ys) = entriesOf xs ++ entriesOf ys := by
  simp [entriesOf]

theorem entriesOf_cons_idle {x : DynamicMemBuf} (h : x.status = .idle) (xs : List DynamicMemBuf) :
    entriesOf (x :: xs) = x.entry :: entriesOf xs := by
  simp [entriesOf, h]

theorem entriesOf_cons_busy {x : DynamicMemBuf} (h : x.status ≠ .idle) (xs : List DynamicMemBuf) :
    entriesOf (x :: xs) = entriesOf xs := by
  simp [entriesOf, h]

theorem idleEntries_append (s : Nat) (bs bs' : List (DynamicMemBlock DynamicMemBuf)) :
    idleEntries s (bs ++ bs') = idleEntries s bs ++ idleEntries s bs' :=
  List.flatMap_append ..

theorem idleEntries_cons_same {s : Nat} {b : DynamicMemBlock DynamicMemBuf} (h : b.streamId = s)
    (bs : List (DynamicMemBlock DynamicMemBuf)) :
    idleEntries s (b :: bs) = entriesOf b.blockAllMemBufMap ++ idleEntries s bs := by
  rw [idleEntries, List.flatMap_cons, if_pos h]
  rfl

theorem idleEntries_cons_other {s : Nat} {b : DynamicMemBlock DynamicMemBuf} (h : b.streamId ≠ s)
    (bs : List (DynamicMemBlock DynamicMemBuf)) :
    idleEntries s (b :: bs) = idleEntries s bs := by
  rw [idleEntries, List.flatMap_cons, if_neg h]
  rfl

/-- An entry comes from an idle buf of a block of the stream. -/
theorem exists_of_mem_idleEntries {s : Nat} {blocks : List (DynamicMemBlock DynamicMemBuf)}
    {e : Nat × Nat} (h : e ∈ idleEntries s blocks) :
    ∃ b ∈ blocks, b.streamId = s ∧ ∃ x ∈ b.blockAllMemBufMap, x.status = .idle ∧ x.entry = e := by
  obtain ⟨b, hb, he⟩ := List.mem_flatMap.mp h
  split at he
  · rename_i hs
    obtain ⟨x, hx, hentry⟩ := List.mem_map.mp he
    obtain ⟨hx, hidle⟩ := List.mem_filter.mp hx
    exact ⟨b, hb, hs, x, hx, of_decide_eq_true hidle, hentry⟩
  · cases he

/-- The entries around a place of its own stream. -/
theorem idleEntries_at {s : Nat} {L R : List (DynamicMemBlock DynamicMemBuf)}
    {blk : DynamicMemBlock DynamicMemBuf} (hs : blk.streamId = s) (bufs : List DynamicMemBuf) :
    idleEntries s (L ++ blk.setBufs bufs :: R) =
      idleEntries s L ++ entriesOf bufs ++ idleEntries s R := by
  rw [idleEntries_append, idleEntries_cons_same (b := blk.setBufs bufs) hs, ← List.append_assoc]
  rfl

theorem idleEntries_at_other {s : Nat} {L R : List (DynamicMemBlock DynamicMemBuf)}
    {blk : DynamicMemBlock DynamicMemBuf} (hs : blk.streamId ≠ s) (bufs : List DynamicMemBuf) :
    idleEntries s (L ++ blk.setBufs bufs :: R) = idleEntries s L ++ idleEntries s R := by
  rw [idleEntries_append, idleEntries_cons_other (b := blk.setBufs bufs) hs]

/-! ## Splitting a buf -/

/-- What is left of an idle buf behind its first `size` bytes. -/
def restOf (size : Nat) (x : DynamicMemBuf) : DynamicMemBuf where
  deviceAddr := x.deviceAddr + size
  status := .idle
  size := x.size - size

section Place

variable {m : MemStatusManager} {L R : List (DynamicMemBlock DynamicMemBuf)}
  {blk : DynamicMemBlock DynamicMemBuf} {l r : List DynamicMemBuf} {x : DynamicMemBuf}

/-- Addresses and sizes in a pool are below `2 ^ 64`. -/
theorem end_le_of_at
    (hplaced : Placed DynamicMemBuf.deviceAddr DynamicMemBuf.size m.memBlockList)
    (hspace : InSpace m.memBlockList) (hat : At m.memBlockList L blk R l x r) :
    0 < x.deviceAddr ∧ x.deviceAddr + x.size ≤ sizeBound := by
  have hin := hplaced.inside (Placed.mem_at hat) (Placed.mem_buf_at hat)
  have := hspace blk (Placed.mem_at hat)
  omega

theorem tiles_split {size : Nat}
    (hplaced : Placed DynamicMemBuf.deviceAddr DynamicMemBuf.size m.memBlockList)
    (hat : At m.memBlockList L blk R l x r) (hpos : 0 < size) (hlt : size < x.size)
    {x' : DynamicMemBuf} (haddr : x'.deviceAddr = x.deviceAddr) (hsize : x'.size = size) :
    Tiles DynamicMemBuf.deviceAddr DynamicMemBuf.size blk.deviceAddrBase
      (l ++ x' :: restOf size x :: r) (blk.deviceAddrBase + blk.memBlockSize) := by
  obtain ⟨hl, -, hr⟩ := (hplaced.tiles_at hat).middle
  refine Tiles.append_iff.mpr ⟨x.deviceAddr, hl, haddr, by omega, ?_, ?_, ?_⟩
  · rw [hsize]
    rfl
  · show 0 < x.size - size
    omega
  · rw [hsize, show x.deviceAddr + size + (restOf size x).size = x.deviceAddr + x.size by
      simp only [restOf]; omega]
    exact hr

theorem splitMemBuf_at {size : Nat}
    (hplaced : Placed DynamicMemBuf.deviceAddr DynamicMemBuf.size m.memBlockList)
    (hspace : InSpace m.memBlockList) (hat : At m.memBlockList L blk R l x r)
    (hidle : x.status = .idle) (hpos : 0 < size) (hlt : size < x.size) :
    ∃ m', m.splitMemBuf size x.deviceAddr = some m' ∧
      m'.memBlockList = L ++ blk.setBufs (l ++ { x with size := size } :: restOf size x :: r) :: R ∧
      m'.mps = m.mps ∧ m'.unitSize = m.unitSize ∧
      ∀ s, sizeMapOf m'.idleMemBufs s =
        if s = blk.streamId then
          (sizeMapOf m.idleMemBufs blk.streamId).emplace (restOf size x).size
            (restOf size x).deviceAddr
        else sizeMapOf m.idleMemBufs s := by
  obtain ⟨hstart, hend⟩ := end_le_of_at hplaced hspace hat
  have hnew : (⟨addSize x.deviceAddr size, x.status, subSize x.size size⟩ : DynamicMemBuf) =
      restOf size x := by
    rw [restOf, addSize_eq (by omega), subSize_eq (by omega) (by omega), hidle]
  have hwrite := writeBuf_at hplaced hat fun b => { b with size := size }
  have hemplace : emplaceBuf DynamicMemBuf.deviceAddr (restOf size x)
      (l ++ { x with size := size } :: r) = l ++ { x with size := size } :: restOf size x :: r := by
    obtain ⟨hl, hr⟩ := (hplaced.tiles_at hat).addr_ne
    obtain ⟨-, -, hrt⟩ := (hplaced.tiles_at hat).middle
    refine emplaceBuf_middle (fun y hy => ?_) ?_ (fun y hy => ?_)
    · have := hl y hy
      show y.deviceAddr < x.deviceAddr + size
      omega
    · show x.deviceAddr < x.deviceAddr + size
      omega
    · have := (hrt.bounds hy).1
      show x.deviceAddr + size < y.deviceAddr
      omega
  refine ⟨{ m with
      memBlockList := L ++ blk.setBufs (l ++ { x with size := size } :: restOf size x :: r) :: R
      idleMemBufs := addMemBuf m.idleMemBufs (restOf size x) blk.streamId }, ?_, rfl, rfl, rfl,
    sizeMapOf_addMemBuf _ _ _⟩
  simp only [MemStatusManager.splitMemBuf, MemStatusManager.readBuf, MemStatusManager.writeBuf,
    findMemBlock_at hplaced hat, readBuf_at hplaced hat, hwrite, hnew, Option.bind_eq_bind,
    Option.bind_some]
  rw [writeBlock_at hplaced hat,
    show (blk.setBufs (l ++ { x with size := size } :: r)).blockAllMemBufMap =
      l ++ { x with size := size } :: r from rfl, hemplace]
  simp only [hidle]
  rfl

end Place

/-! ## A buf goes into use -/

/-- A size after alignment, for requests of up to `2 ^ 62` bytes. -/
def Asked (size : Nat) : Prop := 0 < size ∧ size ≤ 2 ^ 62

/-- A test that splits only what is larger than the request. -/
def Splits (split : Nat → Nat → Bool) : Prop :=
  ∀ size bufSize, Asked size → size ≤ bufSize → bufSize < sizeBound →
    split size bufSize = true → size < bufSize

theorem splits_isSplit : Splits isSplit := by
  intro size bufSize _ hle hlt h
  rw [isSplit, decide_eq_true_eq, subSize_eq hlt hle, kDynamicMemAlignSize] at h
  omega

/-- What an idle buf becomes when `size` bytes of it are taken. -/
def takeBufs (split : Nat → Nat → Bool) (size : Nat) (x : DynamicMemBuf) : List DynamicMemBuf :=
  if split size x.size then [{ x with status := .used, size := size }, restOf size x]
  else [{ x with status := .used }]

/-- The size of the buf that is in use then. -/
def takeSize (split : Nat → Nat → Bool) (size : Nat) (x : DynamicMemBuf) : Nat :=
  if split size x.size then size else x.size

/-- The index with the rest of the buf in it, if there is one. -/
def addRest (split : Nat → Nat → Bool) (size : Nat) (x : DynamicMemBuf) (index : SizeMapMemBuf) :
    SizeMapMemBuf :=
  if split size x.size then index.emplace (restOf size x).size (restOf size x).deviceAddr
  else index

/-- Two pools that differ in nothing that is ever read. -/
structure SameMng (m m' : MemStatusManager) : Prop where
  blocks : m'.memBlockList = m.memBlockList
  mps : m'.mps = m.mps
  unitSize : m'.unitSize = m.unitSize
  index : ∀ s, sizeMapOf m'.idleMemBufs s = sizeMapOf m.idleMemBufs s

/-- From `m` to `m'`, `size` bytes of the idle buf `x` have gone into use. -/
structure Taken (split : Nat → Nat → Bool) (size : Nat) (m m' : MemStatusManager)
    (L : List (DynamicMemBlock DynamicMemBuf)) (blk : DynamicMemBlock DynamicMemBuf)
    (R : List (DynamicMemBlock DynamicMemBuf)) (l : List DynamicMemBuf) (x : DynamicMemBuf)
    (r : List DynamicMemBuf) : Prop where
  place : At m.memBlockList L blk R l x r
  idle : x.status = .idle
  first : (sizeMapOf m.idleMemBufs blk.streamId).lowerBound size = some x.entry
  blocks : m'.memBlockList = L ++ blk.setBufs (l ++ takeBufs split size x ++ r) :: R
  mps : m'.mps = (m.mps.addUsed (takeSize split size x)).subIdle (takeSize split size x)
  unitSize : m'.unitSize = m.unitSize
  index : ∀ s, sizeMapOf m'.idleMemBufs s =
    if s = blk.streamId then
      addRest split size x ((sizeMapOf m.idleMemBufs blk.streamId).eraseLowerBound size)
    else sizeMapOf m.idleMemBufs s

theorem Taken.fits {split : Nat → Nat → Bool} {size : Nat} {m m' : MemStatusManager}
    {L R : List (DynamicMemBlock DynamicMemBuf)} {blk : DynamicMemBlock DynamicMemBuf}
    {l r : List DynamicMemBuf} {x : DynamicMemBuf} (h : Taken split size m m' L blk R l x r) :
    size ≤ x.size :=
  MultiMap.le_of_lowerBound h.first

section Take

variable {split : Nat → Nat → Bool} {size : Nat} {m : MemStatusManager}
  {L R : List (DynamicMemBlock DynamicMemBuf)} {blk : DynamicMemBlock DynamicMemBuf}
  {l r : List DynamicMemBuf} {x : DynamicMemBuf}

/-- The bufs that a buf becomes tile the same range. -/
theorem tiles_takeBufs (hsplits : Splits split)
    (hplaced : Placed DynamicMemBuf.deviceAddr DynamicMemBuf.size m.memBlockList)
    (hspace : InSpace m.memBlockList) (hat : At m.memBlockList L blk R l x r) (hask : Asked size)
    (hfits : size ≤ x.size) :
    Tiles DynamicMemBuf.deviceAddr DynamicMemBuf.size blk.deviceAddrBase
      (l ++ takeBufs split size x ++ r) (blk.deviceAddrBase + blk.memBlockSize) := by
  obtain ⟨hstart, hend⟩ := end_le_of_at hplaced hspace hat
  rw [takeBufs]
  split
  · rename_i hsplit
    have hlt := hsplits size x.size hask hfits (by omega) hsplit
    have htiles : Tiles DynamicMemBuf.deviceAddr DynamicMemBuf.size blk.deviceAddrBase
        (l ++ { x with status := .used, size := size } :: restOf size x :: r)
        (blk.deviceAddrBase + blk.memBlockSize) := tiles_split hplaced hat hask.1 hlt rfl rfl
    simpa using htiles
  · obtain ⟨hl, hx, hr⟩ := (hplaced.tiles_at hat).middle
    rw [List.append_assoc]
    exact Tiles.append_iff.mpr ⟨x.deviceAddr, hl, rfl, hx, hr⟩

/-- The steps that `FindMemBufInSpecifiedMng` and `CreateMemBlockAndMemBuf` have in
common: the buf is split if it is large enough, and its status is set. -/
theorem splitUse_spec (hsplits : Splits split)
    (hplaced : Placed DynamicMemBuf.deviceAddr DynamicMemBuf.size m.memBlockList)
    (hspace : InSpace m.memBlockList) (hat : At m.memBlockList L blk R l x r)
    (hidle : x.status = .idle) (hask : Asked size) (hfits : size ≤ x.size) :
    ∃ m₁ m₂, m.divideMemBuf split size x.size x.deviceAddr = some m₁ ∧
      m₁.writeBuf x.deviceAddr (fun b => { b with status := .used }) = m₂ ∧
      m₂.readBuf x.deviceAddr =
        some { x with status := .used, size := takeSize split size x } ∧
      m₂.memBlockList = L ++ blk.setBufs (l ++ takeBufs split size x ++ r) :: R ∧
      m₂.mps = m.mps ∧ m₂.unitSize = m.unitSize ∧
      ∀ s, sizeMapOf m₂.idleMemBufs s =
        if s = blk.streamId then addRest split size x (sizeMapOf m.idleMemBufs blk.streamId)
        else sizeMapOf m.idleMemBufs s := by
  obtain ⟨hstart, hend⟩ := end_le_of_at hplaced hspace hat
  have hplaced₂ := hplaced.setBufs hat (tiles_takeBufs hsplits hplaced hspace hat hask hfits)
  simp only [takeBufs, takeSize, addRest, MemStatusManager.divideMemBuf] at hplaced₂ ⊢
  by_cases hsplit : split size x.size = true
  · -- the rest becomes a buf of its own, and then the front is marked as used
    have hlt := hsplits size x.size hask hfits (by omega) hsplit
    simp only [hsplit, if_true] at hplaced₂ ⊢
    obtain ⟨m₁, hm₁, hblocks, hmps, hunit, hindex⟩ :=
      splitMemBuf_at hplaced hspace hat hidle hask.1 hlt
    have hplaced₁ := hplaced.setBufs hat
      (tiles_split hplaced hat hask.1 hlt
        (show ({ x with size := size } : DynamicMemBuf).deviceAddr =
        x.deviceAddr from rfl) rfl)
    have hat₁ : At m₁.memBlockList L
        (blk.setBufs (l ++ { x with size := size } :: restOf size x :: r)) R l
        { x with size := size } (restOf size x :: r) := ⟨hblocks, rfl⟩
    rw [← hblocks] at hplaced₁
    have hwrite : (m₁.writeBuf x.deviceAddr fun b => { b with status := .used }).memBlockList =
        L ++ blk.setBufs (l ++ { x with status := .used, size := size } :: restOf size x :: r) ::
          R :=
      writeBuf_at hplaced₁ hat₁ fun b => { b with status := .used }
    refine ⟨m₁, _, hm₁, rfl, ?_, ?_, hmps, hunit, hindex⟩
    · have hat₂ : At (m₁.writeBuf x.deviceAddr fun b => { b with status := .used }).memBlockList L
          (blk.setBufs (l ++ { x with status := .used, size := size } :: restOf size x :: r)) R l
          { x with status := .used, size := size } (restOf size x :: r) := ⟨hwrite, rfl⟩
      have hplaced' : Placed DynamicMemBuf.deviceAddr DynamicMemBuf.size
          (m₁.writeBuf x.deviceAddr fun b => { b with status := .used }).memBlockList := by
        rw [hwrite]
        simpa using hplaced₂
      exact readBuf_at hplaced' hat₂
    · rw [hwrite]
      simp
  · -- the buf is used whole
    simp only [hsplit, Bool.false_eq_true, if_false] at hplaced₂ ⊢
    have hwrite : (m.writeBuf x.deviceAddr fun b => { b with status := .used }).memBlockList =
        L ++ blk.setBufs (l ++ { x with status := .used } :: r) :: R :=
      writeBuf_at hplaced hat fun b => { b with status := .used }
    refine ⟨m, _, rfl, rfl, ?_, ?_, rfl, rfl, ?_⟩
    · have hat₂ : At (m.writeBuf x.deviceAddr fun b => { b with status := .used }).memBlockList L
          (blk.setBufs (l ++ { x with status := .used } :: r)) R l
          { x with status := .used } r := ⟨hwrite, rfl⟩
      have hplaced' : Placed DynamicMemBuf.deviceAddr DynamicMemBuf.size
          (m.writeBuf x.deviceAddr fun b => { b with status := .used }).memBlockList := by
        rw [hwrite]
        simpa using hplaced₂
      exact readBuf_at hplaced' hat₂
    · rw [hwrite]
      simp
    · intro s
      split
      · rename_i hs
        rw [hs]
        rfl
      · rfl

/-- `FindMemBufInSpecifiedMng` takes the first idle buf that is large enough, or
there is none and it changes nothing. -/
theorem findMemBufInSpecifiedMng_spec (hsplits : Splits split) (hinv : MngInv m)
    (hask : Asked size) (streamId : Nat) :
    (∃ m', m.findMemBufInSpecifiedMng split size streamId = some (none, m') ∧ SameMng m m' ∧
      (sizeMapOf m.idleMemBufs streamId).lowerBound size = none) ∨
    ∃ m' L blk R l x r, m.findMemBufInSpecifiedMng split size streamId =
        some (some x.deviceAddr, m') ∧ blk.streamId = streamId ∧
      Taken split size m m' L blk R l x r := by
  have hcreate := sizeMapOf_getOrCreate m.idleMemBufs streamId
  cases hfirst : (sizeMapOf m.idleMemBufs streamId).lowerBound size with
  | none =>
      refine Or.inl ⟨{ m with idleMemBufs := (getOrCreateSizeMapMemBuf m.idleMemBufs streamId).2 },
        ?_, ⟨rfl, rfl, rfl, hcreate⟩, rfl⟩
      simp only [MemStatusManager.findMemBufInSpecifiedMng, getOrCreateSizeMapMemBuf_fst, hfirst]
  | some e =>
      right
      have hmem := (hinv.indexed streamId).mem_iff.mp (MultiMap.mem_of_lowerBound hfirst)
      obtain ⟨blk, hblk, hstream, x, hx, hidle, rfl⟩ := exists_of_mem_idleEntries hmem
      obtain ⟨L, R, l, r, hat⟩ := exists_at hblk hx
      have hfits : size ≤ x.size := MultiMap.le_of_lowerBound hfirst
      generalize hc : (getOrCreateSizeMapMemBuf m.idleMemBufs streamId).2.insert streamId
        ((sizeMapOf m.idleMemBufs streamId).eraseLowerBound size) = c
      obtain ⟨m₁, m₂, hm₁, hm₂, hread, hblocks, hmps, hunit, hindex⟩ :=
        splitUse_spec (m := { m with idleMemBufs := c }) hsplits hinv.placed hinv.inSpace hat hidle
          hask hfits
      have hfirstRead : MemStatusManager.readBuf x.deviceAddr
          { m with idleMemBufs := (getOrCreateSizeMapMemBuf m.idleMemBufs streamId).2 } = some x :=
        readBuf_at hinv.placed hat
      refine ⟨{ m₂ with
          mps := (m₂.mps.addUsed (takeSize split size x)).subIdle (takeSize split size x) },
        L, blk, R, l, x, r, ?_, hstream, ?_⟩
      · simp only [MemStatusManager.findMemBufInSpecifiedMng, getOrCreateSizeMapMemBuf_fst, hfirst,
          show x.entry.2 = x.deviceAddr from rfl, hfirstRead, Option.bind_eq_bind,
          Option.bind_some, hc, hm₁, hm₂, hread]
      · refine ⟨hat, hidle, by rw [hstream]; exact hfirst, hblocks, by rw [hmps], hunit, ?_⟩
        intro s
        show sizeMapOf m₂.idleMemBufs s = _
        rw [hindex]
        show (if s = blk.streamId then addRest split size x (sizeMapOf c blk.streamId)
          else sizeMapOf c s) = _
        by_cases hs : s = blk.streamId
        · rw [if_pos hs, if_pos hs, ← hc, sizeMapOf_insert, if_pos hstream, hstream]
        · rw [if_neg hs, if_neg hs, ← hc, sizeMapOf_insert, if_neg (hstream ▸ hs), hcreate]

end Take

end Ccbase.DynamicMem
