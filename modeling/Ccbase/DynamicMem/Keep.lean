import Ccbase.DynamicMem.Used

/-!
# Part of what is freed is kept

`FreePartTensorMems` frees a list of bufs and then carves ranges back out of what
has become idle. `KeepTensorMemByAddr` finds the buf that a range is in, by
address, first in the common pool and then in the persistent one. A buf passes the
test of the search also at its end, so a range at the start of a persistent block
is taken for the end of a common block that lies right before it.
-/

namespace Ccbase.DynamicMem

open Ccbase.Lib

/-! ## `KeepTensorMemByAddr` -/

namespace MemStatusManager

/-- `EraseMemBufByStatus`. -/
def eraseMemBufByStatus (size deviceAddr : Nat) (targetStatus : DynamicMemBufStatus)
    (streamId : Nat) (m : MemStatusManager) : Option MemStatusManager :=
  if targetStatus = .idle then
    (removeDeviceMem m.idleMemBufs size deviceAddr streamId).map fun c =>
      { m with idleMemBufs := c }
  else
    (removeDeviceMem m.eagerFreeMemBufs size deviceAddr streamId).map fun c =>
      { m with eagerFreeMemBufs := c }

/-- `emplace` in the map of the block at `base`. -/
def emplaceIn (base : Nat) (buf : DynamicMemBuf) (m : MemStatusManager) : MemStatusManager :=
  { m with
    memBlockList := writeBlock base
      (fun b => b.setBufs (emplaceBuf DynamicMemBuf.deviceAddr buf b.blockAllMemBufMap))
      m.memBlockList }

def addIdleMemBuf (buf : DynamicMemBuf) (streamId : Nat) (m : MemStatusManager) :
    MemStatusManager :=
  { m with idleMemBufs := addMemBuf m.idleMemBufs buf streamId }

/-- The part of `KeepTensorMemByAddr` that splits the left buf. -/
def keepLeft (deviceAddr size splitLeftSize : Nat) (memBlock : DynamicMemBlock DynamicMemBuf)
    (memBuf : DynamicMemBuf) (m : MemStatusManager) : MemStatusManager :=
  if splitLeftSize = 0 then
    m.writeBuf memBuf.deviceAddr fun b => { b with status := .used, size := size }
  else
    ((m.writeBuf memBuf.deviceAddr fun b => { b with size := splitLeftSize }).addIdleMemBuf
      { memBuf with size := splitLeftSize } memBlock.streamId).emplaceIn memBlock.deviceAddrBase
        { deviceAddr := deviceAddr, status := .used, size := size }

/-- The part of `KeepTensorMemByAddr` that splits the right buf. -/
def keepRight (deviceAddr size splitRightSize : Nat) (memBlock : DynamicMemBlock DynamicMemBuf)
    (m : MemStatusManager) : MemStatusManager :=
  if 0 < splitRightSize then
    let rightMemBuf : DynamicMemBuf :=
      { deviceAddr := addSize deviceAddr size, status := .idle, size := splitRightSize }
    (m.emplaceIn memBlock.deviceAddrBase rightMemBuf).addIdleMemBuf rightMemBuf memBlock.streamId
  else m

/-- `KeepTensorMemByAddr`, in the pool, the block and the buf that were found. -/
def keepTensorMem (deviceAddr size : Nat) (memBlock : DynamicMemBlock DynamicMemBuf)
    (memBuf : DynamicMemBuf) (m : MemStatusManager) : Option MemStatusManager := do
  let splitLeftSize := subSize deviceAddr memBuf.deviceAddr
  let splitRightSize := subSize (subSize memBuf.size splitLeftSize) size
  let m ← m.eraseMemBufByStatus memBuf.size memBuf.deviceAddr memBuf.status memBlock.streamId
  let m := m.keepLeft deviceAddr size splitLeftSize memBlock memBuf
  let m := m.keepRight deviceAddr size splitRightSize memBlock
  some { m with mps := (m.mps.addUsed size).subIdle size }

/-- `FindMemBufByKeepAddr`: the buf before `upper_bound(device_addr)`. -/
def findMemBufByKeepAddr (deviceAddr : Nat) (memBlock : DynamicMemBlock DynamicMemBuf) :
    Option DynamicMemBuf :=
  (memBlock.blockAllMemBufMap.takeWhile fun b => !decide (deviceAddr < b.deviceAddr)).getLast?

/-- `is_addr_in_membuf`. -/
def isAddrInMembuf (deviceAddr : Nat) (memBuf : DynamicMemBuf) : Bool :=
  decide (memBuf.deviceAddr ≤ deviceAddr) &&
    decide (subSize deviceAddr memBuf.deviceAddr ≤ memBuf.size)

/-- The search of `FindByKeepAddr` in one of the pools. -/
def findKeep (deviceAddr : Nat) (m : MemStatusManager) :
    Option (DynamicMemBlock DynamicMemBuf × DynamicMemBuf) := do
  let memBlock ← findMemBlock deviceAddr m.memBlockList
  let memBuf ← findMemBufByKeepAddr deviceAddr memBlock
  if isAddrInMembuf deviceAddr memBuf then some (memBlock, memBuf) else none

end MemStatusManager

namespace DynamicMemPoolBestFit

/-- `FindByKeepAddr`: first in the common pool, then in the persistent one. -/
def findByKeepAddr (deviceAddr : Nat) (p : DynamicMemPoolBestFit) :
    Option (Bool × DynamicMemBlock DynamicMemBuf × DynamicMemBuf) :=
  match p.commonMem.findKeep deviceAddr with
  | some r => some (false, r)
  | none => (p.persistentMem.findKeep deviceAddr).map fun r => (true, r)

def keepTensorMemByAddr (deviceAddr size : Nat) (p : DynamicMemPoolBestFit) :
    Option DynamicMemPoolBestFit := do
  let (persistent, memBlock, memBuf) ← p.findByKeepAddr deviceAddr
  let m ← (p.mng persistent).keepTensorMem deviceAddr size memBlock memBuf
  some (p.setMng persistent m)

/-- `FreePartTensorMems`; the addresses and the sizes to keep are one list. -/
def freePartTensorMems (freeAddrs : List Nat) (keeps : List (Nat × Nat))
    (p : DynamicMemPoolBestFit) : Option DynamicMemPoolBestFit := do
  let p ← freeAddrs.foldlM (fun p a => p.freeTensorMem a) p
  keeps.foldlM (fun p k => p.keepTensorMemByAddr k.1 k.2) p

end DynamicMemPoolBestFit

/-! ## A range in an idle buf -/

/-- What is idle before the range. -/
def leftOf (k : Nat) (x : DynamicMemBuf) : List DynamicMemBuf :=
  if k = x.deviceAddr then []
  else [{ deviceAddr := x.deviceAddr, status := .idle, size := k - x.deviceAddr }]

/-- The buf of a range that is kept. -/
def keptBuf (k size : Nat) : DynamicMemBuf where
  deviceAddr := k
  status := .used
  size := size

/-- What is idle behind the range. -/
def rightOf (k size : Nat) (x : DynamicMemBuf) : List DynamicMemBuf :=
  if k + size = x.deviceAddr + x.size then []
  else
    [{ deviceAddr := k + size, status := .idle, size := x.deviceAddr + x.size - (k + size) }]

def keepBufs (k size : Nat) (x : DynamicMemBuf) : List DynamicMemBuf :=
  leftOf k x ++ keptBuf k size :: rightOf k size x

/-- The index with more bufs in it. -/
def addAll (bufs : List DynamicMemBuf) (index : SizeMapMemBuf) : SizeMapMemBuf :=
  bufs.foldl (fun index b => index.emplace b.size b.deviceAddr) index

/-- From `m` to `m'`, the range `[k, k + size)` of the idle buf `x` has gone into use. -/
structure Kept (m m' : MemStatusManager) (L : List (DynamicMemBlock DynamicMemBuf))
    (blk : DynamicMemBlock DynamicMemBuf) (R : List (DynamicMemBlock DynamicMemBuf))
    (l : List DynamicMemBuf) (x : DynamicMemBuf) (r : List DynamicMemBuf) (k size : Nat) :
    Prop where
  place : At m.memBlockList L blk R l x r
  idle : x.status = .idle
  pos : 0 < size
  lo : x.deviceAddr ≤ k
  hi : k + size ≤ x.deviceAddr + x.size
  blocks : m'.memBlockList = L ++ blk.setBufs (l ++ keepBufs k size x ++ r) :: R
  mps : m'.mps = (m.mps.addUsed size).subIdle size
  unitSize : m'.unitSize = m.unitSize
  index : ∀ s, sizeMapOf m'.idleMemBufs s =
    if s = blk.streamId then
      addAll (leftOf k x ++ rightOf k size x) ((sizeMapOf m.idleMemBufs blk.streamId).eraseFirst
        fun e => decide (e = x.entry))
    else sizeMapOf m.idleMemBufs s

section Keep

variable {m m' : MemStatusManager} {L R : List (DynamicMemBlock DynamicMemBuf)}
  {blk : DynamicMemBlock DynamicMemBuf} {l r : List DynamicMemBuf} {x : DynamicMemBuf}
  {k size : Nat}

theorem addAll_append (xs ys : List DynamicMemBuf) (index : SizeMapMemBuf) :
    addAll (xs ++ ys) index = addAll ys (addAll xs index) :=
  List.foldl_append ..

theorem perm_addAll (bufs : List DynamicMemBuf) : ∀ (index : SizeMapMemBuf),
    (addAll bufs index).entries.Perm (bufs.map DynamicMemBuf.entry ++ index.entries) := by
  induction bufs with
  | nil => exact fun index => List.Perm.refl _
  | cons b bufs ih =>
      intro index
      refine (ih _).trans ?_
      have hemplace := MultiMap.perm_emplace index b.size b.deviceAddr
      exact (hemplace.append_left _).trans List.perm_middle

/-- A buf that is put between its neighbours, in a block whose bufs have been written. -/
theorem emplaceIn_at {bufs : List DynamicMemBuf} {z new : DynamicMemBuf} {blocks}
    (hplaced : Placed DynamicMemBuf.deviceAddr DynamicMemBuf.size blocks)
    (hat : At blocks L blk R l x r)
    (hblocks : m.memBlockList = L ++ blk.setBufs (bufs ++ z :: r) :: R)
    (hl : ∀ y ∈ bufs, y.deviceAddr < new.deviceAddr) (hz : z.deviceAddr < new.deviceAddr)
    (hr : ∀ y ∈ r, new.deviceAddr < y.deviceAddr) :
    (m.emplaceIn blk.deviceAddrBase new).memBlockList =
      L ++ blk.setBufs (bufs ++ z :: new :: r) :: R := by
  rw [MemStatusManager.emplaceIn, hblocks, writeBlock_at hplaced hat]
  rw [show (blk.setBufs (bufs ++ z :: r)).blockAllMemBufMap = bufs ++ z :: r from rfl,
    emplaceBuf_middle hl hz hr]
  rfl

theorem keepLeft_spec (size : Nat)
    (hplaced : Placed DynamicMemBuf.deviceAddr DynamicMemBuf.size m.memBlockList)
    (hat : At m.memBlockList L blk R l x r) (hidle : x.status = .idle) (hlo : x.deviceAddr ≤ k)
    (hhi : k < x.deviceAddr + x.size) :
    (m.keepLeft k size (k - x.deviceAddr) blk x).memBlockList =
        L ++ blk.setBufs (l ++ leftOf k x ++ keptBuf k size :: r) :: R ∧
      (m.keepLeft k size (k - x.deviceAddr) blk x).mps = m.mps ∧
      (m.keepLeft k size (k - x.deviceAddr) blk x).unitSize = m.unitSize ∧
      ∀ s, sizeMapOf (m.keepLeft k size (k - x.deviceAddr) blk x).idleMemBufs s =
        if s = blk.streamId then addAll (leftOf k x) (sizeMapOf m.idleMemBufs blk.streamId)
        else sizeMapOf m.idleMemBufs s := by
  rw [MemStatusManager.keepLeft, leftOf]
  by_cases hk : k = x.deviceAddr
  · have hkept : { x with status := .used, size := size } = keptBuf k size := by
      rw [keptBuf, hk]
    rw [if_pos (by omega), if_pos hk]
    refine ⟨?_, rfl, rfl, fun s => ?_⟩
    · have hwrite := writeBuf_at hplaced hat fun b => { b with status := .used, size := size }
      rw [hkept] at hwrite
      rw [List.append_nil]
      exact hwrite
    · split
      · rename_i hs
        rw [hs]
        rfl
      · rfl
  · have hleft : { x with size := k - x.deviceAddr } =
        (⟨x.deviceAddr, .idle, k - x.deviceAddr⟩ : DynamicMemBuf) := by
      rw [← hidle]
    rw [if_neg (by omega), if_neg hk, hleft]
    refine ⟨?_, rfl, rfl, fun s => sizeMapOf_addMemBuf _ _ _ s⟩
    obtain ⟨hl, hr⟩ := (hplaced.tiles_at hat).addr_ne
    obtain ⟨-, -, htail⟩ := (hplaced.tiles_at hat).middle
    have hwrite := writeBuf_at hplaced hat fun b => { b with size := k - x.deviceAddr }
    rw [hleft] at hwrite
    rw [List.append_assoc, List.singleton_append]
    refine emplaceIn_at hplaced hat hwrite (fun y hy => ?_) ?_ fun y hy => ?_
    · exact (hl y hy).trans_le hlo
    · show x.deviceAddr < k
      omega
    · exact hhi.trans_le (htail.bounds hy).1

/-- The rest of a buf is put back behind the range. -/
theorem keepRight_spec {blocks : List (DynamicMemBlock DynamicMemBuf)} {bufs}
    (hplaced : Placed DynamicMemBuf.deviceAddr DynamicMemBuf.size blocks)
    (hat : At blocks L blk R l x r) (hend : x.deviceAddr + x.size ≤ sizeBound)
    (hpos : 0 < size) (hhi : k + size ≤ x.deviceAddr + x.size)
    (hblocks : m.memBlockList = L ++ blk.setBufs (bufs ++ keptBuf k size :: r) :: R)
    (hbufs : ∀ y ∈ bufs, y.deviceAddr < k) :
    (m.keepRight k size (x.deviceAddr + x.size - (k + size)) blk).memBlockList =
        L ++ blk.setBufs (bufs ++ keptBuf k size :: (rightOf k size x ++ r)) :: R ∧
      (m.keepRight k size (x.deviceAddr + x.size - (k + size)) blk).mps = m.mps ∧
      (m.keepRight k size (x.deviceAddr + x.size - (k + size)) blk).unitSize = m.unitSize ∧
      ∀ s, sizeMapOf
          (m.keepRight k size (x.deviceAddr + x.size - (k + size)) blk).idleMemBufs s =
        if s = blk.streamId then addAll (rightOf k size x) (sizeMapOf m.idleMemBufs blk.streamId)
        else sizeMapOf m.idleMemBufs s := by
  rw [MemStatusManager.keepRight, rightOf]
  by_cases hk : k + size = x.deviceAddr + x.size
  · rw [if_neg (by omega), if_pos hk]
    refine ⟨hblocks, rfl, rfl, fun s => ?_⟩
    split
    · rename_i hs
      rw [hs]
      rfl
    · rfl
  · rw [if_pos (by omega), if_neg hk, addSize_eq (by omega)]
    refine ⟨?_, rfl, rfl, fun s => sizeMapOf_addMemBuf _ _ _ s⟩
    obtain ⟨-, -, htail⟩ := (hplaced.tiles_at hat).middle
    refine emplaceIn_at hplaced hat hblocks (fun y hy => ?_) ?_ fun y hy => ?_
    · have := hbufs y hy
      show y.deviceAddr < k + size
      omega
    · show k < k + size
      omega
    · have := (htail.bounds hy).1
      show k + size < y.deviceAddr
      omega

theorem keepTensorMem_spec (hinv : MngInv m) (hat : At m.memBlockList L blk R l x r)
    (hidle : x.status = .idle) (hpos : 0 < size) (hlo : x.deviceAddr ≤ k)
    (hhi : k + size ≤ x.deviceAddr + x.size) :
    ∃ m', m.keepTensorMem k size blk x = some m' ∧ Kept m m' L blk R l x r k size := by
  obtain ⟨-, hend⟩ := end_le_of_at hinv.placed hinv.inSpace hat
  have hbound : sizeBound = 18446744073709551616 := rfl
  have hstart : 0 < x.deviceAddr := (end_le_of_at hinv.placed hinv.inSpace hat).1
  obtain ⟨c, hc, hindex⟩ := removeDeviceMem_of_mem
    (hinv.entry_mem (Placed.mem_at hat) (Placed.mem_buf_at hat) hidle)
  obtain ⟨hblocks₁, hmps₁, hunit₁, hindex₁⟩ :=
    keepLeft_spec (m := { m with idleMemBufs := c }) size hinv.placed hat hidle hlo
      (by omega)
  have hbefore : ∀ y ∈ l ++ leftOf k x, y.deviceAddr < k := by
    intro y hy
    rcases List.mem_append.mp hy with hy | hy
    · have := ((hinv.placed.tiles_at hat).addr_ne).1 y hy
      omega
    · rw [leftOf] at hy
      split at hy
      · cases hy
      · obtain rfl := List.mem_singleton.mp hy
        show x.deviceAddr < k
        omega
  obtain ⟨hblocks₂, hmps₂, hunit₂, hindex₂⟩ :=
    keepRight_spec hinv.placed hat hend hpos hhi hblocks₁ hbefore
  have hleft : subSize k x.deviceAddr = k - x.deviceAddr := subSize_eq (by omega) hlo
  have hright : subSize (subSize x.size (k - x.deviceAddr)) size =
      x.deviceAddr + x.size - (k + size) := by
    have hinner : subSize x.size (k - x.deviceAddr) = x.size - (k - x.deviceAddr) :=
      subSize_eq (by omega) (by omega)
    rw [hinner, subSize_eq (by omega) (by omega)]
    omega
  generalize hm₁ : MemStatusManager.keepLeft k size (k - x.deviceAddr) blk x
    { m with idleMemBufs := c } = m₁ at hblocks₁ hmps₁ hunit₁ hindex₁ hblocks₂ hmps₂ hunit₂ hindex₂
  generalize hm₂ : m₁.keepRight k size (x.deviceAddr + x.size - (k + size)) blk = m₂
    at hblocks₂ hmps₂ hunit₂ hindex₂
  refine ⟨{ m₂ with mps := (m₂.mps.addUsed size).subIdle size }, ?_, hat, hidle, hpos, hlo, hhi, ?_,
    ?_, hunit₂.trans hunit₁, fun s => ?_⟩
  · simp only [MemStatusManager.keepTensorMem, MemStatusManager.eraseMemBufByStatus, if_pos hidle,
      hc, hleft, hright, hm₁, hm₂, Option.map_some, Option.bind_eq_bind, Option.bind_some]
  · rw [hblocks₂, keepBufs]
    simp
  · rw [hmps₂, hmps₁]
  · rw [hindex₂, hindex₁, if_pos rfl, addAll_append]
    by_cases hs : s = blk.streamId
    · rw [if_pos hs, if_pos hs, hindex, if_pos rfl]
      rfl
    · rw [if_neg hs, if_neg hs, hindex₁, if_neg hs, hindex, if_neg hs]

/-! ## The invariant over a range that is kept -/

theorem Kept.tiles (h : Kept m m' L blk R l x r k size)
    (hplaced : Placed DynamicMemBuf.deviceAddr DynamicMemBuf.size m.memBlockList) :
    Tiles DynamicMemBuf.deviceAddr DynamicMemBuf.size blk.deviceAddrBase
      (l ++ keepBufs k size x ++ r) (blk.deviceAddrBase + blk.memBlockSize) := by
  obtain ⟨hl, -, hr⟩ := (hplaced.tiles_at h.place).middle
  have hpos := h.pos
  have hlo := h.lo
  have hhi := h.hi
  have hleft : Tiles DynamicMemBuf.deviceAddr DynamicMemBuf.size x.deviceAddr (leftOf k x) k := by
    rw [leftOf]
    split
    · rename_i hk
      exact hk.symm
    · refine ⟨rfl, ?_, ?_⟩
      · show 0 < k - x.deviceAddr
        omega
      · show x.deviceAddr + (k - x.deviceAddr) = k
        omega
  have hright : Tiles DynamicMemBuf.deviceAddr DynamicMemBuf.size (k + size) (rightOf k size x)
      (x.deviceAddr + x.size) := by
    rw [rightOf]
    split
    · rename_i hk
      exact hk
    · refine ⟨rfl, ?_, ?_⟩
      · show 0 < x.deviceAddr + x.size - (k + size)
        omega
      · show k + size + (x.deviceAddr + x.size - (k + size)) = x.deviceAddr + x.size
        omega
  rw [keepBufs, List.append_assoc]
  refine Tiles.append_iff.mpr ⟨x.deviceAddr, hl,
    Tiles.append_iff.mpr ⟨x.deviceAddr + x.size, ?_, hr⟩⟩
  exact Tiles.append_iff.mpr ⟨k, hleft, rfl, hpos, hright⟩

theorem leftOf_idle : ∀ y ∈ leftOf k x, y.status = .idle := by
  intro y hy
  rw [leftOf] at hy
  split at hy
  · cases hy
  · obtain rfl := List.mem_singleton.mp hy
    rfl

theorem rightOf_idle : ∀ y ∈ rightOf k size x, y.status = .idle := by
  intro y hy
  rw [rightOf] at hy
  split at hy
  · cases hy
  · obtain rfl := List.mem_singleton.mp hy
    rfl

theorem entriesOf_of_idle {bufs : List DynamicMemBuf} (h : ∀ y ∈ bufs, y.status = .idle) :
    entriesOf bufs = bufs.map DynamicMemBuf.entry := by
  rw [entriesOf, List.filter_eq_self.mpr fun y hy => decide_eq_true (h y hy)]

theorem entriesOf_keepBufs :
    entriesOf (keepBufs k size x) = (leftOf k x ++ rightOf k size x).map DynamicMemBuf.entry := by
  rw [keepBufs, entriesOf_append, entriesOf_cons_busy (show (keptBuf k size).status ≠ .idle from by
    simp [keptBuf]), entriesOf_of_idle leftOf_idle, entriesOf_of_idle rightOf_idle, List.map_append]

/-- What is left of an idle buf has no idle neighbour. -/
theorem isChain_keepBufs (hl : l.IsChain NotBothIdle) (hr : r.IsChain NotBothIdle)
    (hlx : ∀ w ∈ l.getLast?, w.status ≠ .idle) (hxr : ∀ y ∈ r.head?, y.status ≠ .idle) :
    (l ++ keepBufs k size x ++ r).IsChain NotBothIdle := by
  have hleft : (l ++ leftOf k x).IsChain NotBothIdle := by
    rw [leftOf]
    split
    · rw [List.append_nil]
      exact hl
    · exact isChain_of_middle hl List.isChain_nil
        (fun w hw => notBothIdle_left (hlx w hw) _) (by simp)
  have hright : (rightOf k size x ++ r).IsChain NotBothIdle := by
    rw [rightOf]
    split
    · exact hr
    · have hchain := isChain_of_middle (l := []) (x := ⟨k + size, .idle,
        x.deviceAddr + x.size - (k + size)⟩) List.isChain_nil hr (by simp)
        fun y hy => notBothIdle_right _ (hxr y hy)
      exact hchain
  have hused : (keptBuf k size).status ≠ .idle := by simp [keptBuf]
  rw [keepBufs, show l ++ (leftOf k x ++ keptBuf k size :: rightOf k size x) ++ r =
    (l ++ leftOf k x) ++ keptBuf k size :: (rightOf k size x ++ r) by simp]
  exact isChain_of_middle hleft hright (fun w _ => notBothIdle_right w hused)
    fun y _ => notBothIdle_left hused y

theorem mem_keepBufs_iff {y : DynamicMemBuf} (hused : y.status = .used) :
    y ∈ keepBufs k size x ↔ y = keptBuf k size := by
  have hidle : ∀ {bufs : List DynamicMemBuf}, (∀ w ∈ bufs, w.status = .idle) → y ∉ bufs := by
    intro bufs hbufs hy
    have := hbufs y hy
    rw [hused] at this
    cases this
  rw [keepBufs, List.mem_append, List.mem_cons]
  simp [hidle leftOf_idle, hidle rightOf_idle]

theorem Kept.inv (hinv : MngInv m) (h : Kept m m' L blk R l x r k size) : MngInv m' := by
  obtain ⟨hl, hr, hlx, hxr⟩ := isChain_middle (hinv.chain_at h.place)
  have hindex := hinv.indexed_at h.place
  rw [entriesOf_append, entriesOf_cons_idle h.idle,
    show idleEntries blk.streamId L ++ (entriesOf l ++ x.entry :: entriesOf r) ++
      idleEntries blk.streamId R = (idleEntries blk.streamId L ++ entriesOf l) ++
        x.entry :: (entriesOf r ++ idleEntries blk.streamId R) by simp] at hindex
  refine MngInv.replace h.blocks ?_ ?_ (hinv.others h.place.blocks) ?_ ?_ ?_ ?_
  · rw [h.blocks]
    exact hinv.placed.setBufs h.place (h.tiles hinv.placed)
  · rw [h.blocks]
    exact hinv.inSpace.setBufs h.place.blocks _
  · exact isChain_keepBufs hl hr (fun w hw hidle => hlx w hw ⟨hidle, h.idle⟩)
      fun y hy hidle => hxr y hy ⟨h.idle, hidle⟩
  · intro y hy
    have hkeep : y ∈ keepBufs k size x → y.status ≠ .eagerFree := by
      intro hy
      rw [keepBufs] at hy
      rcases List.mem_append.mp hy with hy | hy
      · simp [leftOf_idle y hy]
      · rcases List.mem_cons.mp hy with rfl | hy
        · simp [keptBuf]
        · simp [rightOf_idle y hy]
    rcases List.mem_append.mp hy with hy | hy
    · rcases List.mem_append.mp hy with hy | hy
      · exact hinv.noEager_at h.place y (by simp [hy])
      · exact hkeep hy
    · exact hinv.noEager_at h.place y (by simp [hy])
  · rw [h.index, if_pos rfl]
    have herase := MultiMap.perm_eraseFirst_middle (p := fun e => decide (e = x.entry)) hindex
      fun d => by simp
    refine (perm_addAll _ _).trans ?_
    rw [entriesOf_append, entriesOf_append, entriesOf_keepBufs]
    refine (herase.append_left _).trans ?_
    rw [show idleEntries blk.streamId L ++
        (entriesOf l ++ (leftOf k x ++ rightOf k size x).map DynamicMemBuf.entry ++ entriesOf r) ++
        idleEntries blk.streamId R = (idleEntries blk.streamId L ++ entriesOf l) ++
          ((leftOf k x ++ rightOf k size x).map DynamicMemBuf.entry ++
            (entriesOf r ++ idleEntries blk.streamId R)) by simp]
    rw [← List.append_assoc, ← List.append_assoc (idleEntries blk.streamId L ++ entriesOf l)]
    exact List.perm_append_comm.append_right _
  · intro s hs
    rw [h.index, if_neg (Ne.symm hs)]
    exact hinv.indexed_other h.place.blocks hs

theorem Kept.used_iff {y : DynamicMemBuf} (h : Kept m m' L blk R l x r k size)
    (hused : y.status = .used) :
    y ∈ allBufs m'.memBlockList ↔ y ∈ allBufs m.memBlockList ∨ y = keptBuf k size := by
  have hne : y ≠ x := by
    rintro rfl
    rw [h.idle] at hused
    cases hused
  rw [allBufs_at h.place, h.blocks, allBufs_setBufs]
  simp only [List.mem_append, List.mem_cons, mem_keepBufs_iff hused, hne, false_or]
  tauto

/-! ## The search by address -/

theorem findKeep_at
    (hplaced : Placed DynamicMemBuf.deviceAddr DynamicMemBuf.size m.memBlockList)
    (hspace : InSpace m.memBlockList) (hat : At m.memBlockList L blk R l x r)
    (hlo : x.deviceAddr ≤ k) (hhi : k < x.deviceAddr + x.size) :
    m.findKeep k = some (blk, x) := by
  obtain ⟨-, hend⟩ := end_le_of_at hplaced hspace hat
  have hin := hplaced.inside (Placed.mem_at hat) (Placed.mem_buf_at hat)
  obtain ⟨hl, -⟩ := (hplaced.tiles_at hat).addr_ne
  obtain ⟨-, -, htail⟩ := (hplaced.tiles_at hat).middle
  have hblock : findMemBlock k m.memBlockList = some blk :=
    findMemBlock_inside hplaced hat.blocks (by omega) (by omega)
  have hbuf : MemStatusManager.findMemBufByKeepAddr k blk = some x := by
    rw [MemStatusManager.findMemBufByKeepAddr, hat.bufs]
    refine getLast?_takeWhile_middle (fun y hy => ?_) ?_ fun y hy => ?_
    · have := hl y hy
      rw [Bool.not_eq_true', decide_eq_false_iff_not]
      omega
    · rw [Bool.not_eq_true', decide_eq_false_iff_not]
      omega
    · have := (htail.bounds (List.mem_of_mem_head? hy)).1
      rw [Bool.not_eq_false', decide_eq_true_eq]
      omega
  have htest : MemStatusManager.isAddrInMembuf k x = true := by
    rw [MemStatusManager.isAddrInMembuf, subSize_eq (by omega) hlo, Bool.and_eq_true,
      decide_eq_true_eq, decide_eq_true_eq]
    omega
  simp only [MemStatusManager.findKeep, hblock, hbuf, htest, Option.bind_eq_bind,
    Option.bind_some, if_true]

/-- An address that is in no block, and not the end of one. -/
theorem findKeep_none
    (hplaced : Placed DynamicMemBuf.deviceAddr DynamicMemBuf.size m.memBlockList)
    (hk : k < sizeBound)
    (hout : ∀ b ∈ m.memBlockList, b.deviceAddrBase + b.memBlockSize < k ∨ k < b.deviceAddrBase) :
    m.findKeep k = none := by
  cases hfound : m.findKeep k with
  | none => rfl
  | some found =>
      simp only [MemStatusManager.findKeep, Option.bind_eq_bind] at hfound
      obtain ⟨b, hb, hfound⟩ := Option.bind_eq_some_iff.mp hfound
      obtain ⟨y, hy, hfound⟩ := Option.bind_eq_some_iff.mp hfound
      rw [MemStatusManager.findMemBufByKeepAddr] at hy
      have hmem := (List.takeWhile_sublist _).mem (List.mem_of_getLast? hy)
      have hin := hplaced.inside (mem_of_findMemBlock hb) hmem
      have hbase := base_le_of_findMemBlock hb
      have hout := hout b (mem_of_findMemBlock hb)
      have htest : MemStatusManager.isAddrInMembuf k y = false := by
        rw [MemStatusManager.isAddrInMembuf, Bool.and_eq_false_iff, decide_eq_false_iff_not,
          decide_eq_false_iff_not]
        by_cases hle : y.deviceAddr ≤ k
        · rw [subSize_eq hk hle]
          omega
        · exact Or.inl hle
      rw [htest] at hfound
      cases hfound

end Keep

/-! ## Both pools -/

/-- The search takes the range for the end of a common block: it is at the start of a
persistent block that lies right behind one. -/
def Misled (p : DynamicMemPoolBestFit) (k : Nat) : Prop :=
  (∃ b ∈ p.persistentMem.memBlockList, b.deviceAddrBase = k) ∧
    ∃ b ∈ p.commonMem.memBlockList, b.deviceAddrBase + b.memBlockSize = k

instance decidableMisled (p : DynamicMemPoolBestFit) (k : Nat) : Decidable (Misled p k) :=
  inferInstanceAs (Decidable (_ ∧ _))

section Pools

open DynamicMemPoolBestFit

variable {p : DynamicMemPoolBestFit} {b : Bool} {L R : List (DynamicMemBlock DynamicMemBuf)}
  {blk : DynamicMemBlock DynamicMemBuf} {l r : List DynamicMemBuf} {x : DynamicMemBuf}
  {k size : Nat}

theorem findByKeepAddr_spec (hinv : PoolInv p) (hat : At (p.mng b).memBlockList L blk R l x r)
    (hlo : x.deviceAddr ≤ k) (hhi : k < x.deviceAddr + x.size) (hsafe : ¬ Misled p k) :
    p.findByKeepAddr k = some (b, blk, x) := by
  have hfound : (p.mng b).findKeep k = some (blk, x) :=
    findKeep_at (hinv.mngs b).placed (hinv.mngs b).inSpace hat hlo hhi
  have hblk := Placed.mem_at hat
  have hin := (hinv.mngs b).placed.inside hblk (Placed.mem_buf_at hat)
  have hspace := (hinv.mngs b).inSpace blk hblk
  cases b with
  | false =>
      have hfound : p.commonMem.findKeep k = some (blk, x) := hfound
      rw [findByKeepAddr, hfound]
  | true =>
      have hcommon : p.commonMem.findKeep k = none := by
        refine findKeep_none (hinv.mngs false).placed (by omega) fun b hb => ?_
        have hapart := hinv.apart true blk hblk b hb
        have hpos := (hinv.mngs false).placed.pos b hb
        rw [Apart] at hapart
        by_cases hbase : blk.deviceAddrBase = k
        · have hne : b.deviceAddrBase + b.memBlockSize ≠ k := fun hb' =>
            hsafe ⟨⟨blk, hblk, hbase⟩, ⟨b, hb, hb'⟩⟩
          omega
        · omega
      have hfound : p.persistentMem.findKeep k = some (blk, x) := hfound
      rw [findByKeepAddr, hcommon, hfound]
      rfl

theorem keepTensorMemByAddr_spec (hinv : PoolInv p) (hx : InPool p b x) (hidle : x.status = .idle)
    (hpos : 0 < size) (hlo : x.deviceAddr ≤ k) (hhi : k + size ≤ x.deviceAddr + x.size)
    (hsafe : ¬ Misled p k) :
    ∃ p' L blk R l r, p.keepTensorMemByAddr k size = some p' ∧
      Kept (p.mng b) (p'.mng b) L blk R l x r k size ∧ Elsewhere b p p' := by
  obtain ⟨blk, hblk, hxblk⟩ := mem_allBufs.mp hx
  obtain ⟨L, R, l, r, hat⟩ := exists_at hblk hxblk
  obtain ⟨m', hm', hkept⟩ := keepTensorMem_spec (hinv.mngs b) hat hidle hpos hlo hhi
  refine ⟨p.setMng b m', L, blk, R, l, r, ?_, by rw [mng_setMng_same]; exact hkept,
    elsewhere_setMng b m' p⟩
  simp only [keepTensorMemByAddr, findByKeepAddr_spec hinv hat hlo (by omega) hsafe,
    Option.bind_eq_bind, Option.bind_some, hm']

theorem Kept.poolInv {p' : DynamicMemPoolBestFit} (hinv : PoolInv p)
    (h : Kept (p.mng b) (p'.mng b) L blk R l x r k size) (he : Elsewhere b p p') : PoolInv p' := by
  refine hinv.step he (h.inv (hinv.mngs b)) ?_ h.unitSize
  rw [h.blocks]
  exact apart_setBufs h.place.blocks (hinv.apart b)

end Pools

end Ccbase.DynamicMem
