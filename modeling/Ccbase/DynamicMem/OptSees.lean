import Ccbase.DynamicMem.Live
import Ccbase.DynamicMem.OptWrites

/-!
# The two classes side by side

`DynamicMemPoolBestFitOpt` has its bufs and blocks on a heap, and
`DynamicMemPoolBestFit` by value. `Sees` says that the pointers of the one lead to
what the other has. Which pointer it is depends on the address alone: of a buf on
its own, of a block on its base.

An operation works on one block of one pool. `HasBlock` and `HasIndex` follow what
it does there, and `Within` says that it does nothing anywhere else.
-/

namespace Ccbase.DynamicMem.Opt

open Ccbase.Lib

/-- The pointers to the bufs and to the blocks. -/
structure Pointers where
  buf : Nat → Nat
  block : Nat → Nat

def Pointers.setBuf (a p : Nat) (ptrs : Pointers) : Pointers :=
  { ptrs with buf := Function.update ptrs.buf a p }

/-- The object of a buf in the block at `q`. -/
def bufAt (q : Nat) (x : DynamicMem.DynamicMemBuf) : DynamicMemBuf where
  deviceAddr := x.deviceAddr
  memBlockPtr := q
  status := x.status
  size := x.size

namespace DynamicMemPoolBestFitOpt

variable {s s' s₁ : DynamicMemPoolBestFitOpt} {ptrs ptrs' : Pointers} {b : Bool} {q : Nat}
  {blk : DynamicMem.DynamicMemBlock DynamicMem.DynamicMemBuf}
  {l r : List DynamicMem.DynamicMemBuf} {x y z : DynamicMem.DynamicMemBuf}

/-! ## One block -/

/-- The pointers of a block lead to the block and to its bufs. -/
structure HasBlock (ptrs : Pointers) (s : DynamicMemPoolBestFitOpt)
    (blk : DynamicMem.DynamicMemBlock DynamicMem.DynamicMemBuf) : Prop where
  block : ∃ map : OrdMap Nat Nat, s.blocks.get (ptrs.block blk.deviceAddrBase) =
      some ⟨blk.deviceAddrBase, blk.memBlockSize, blk.streamId, map⟩ ∧
    map.entries = blk.blockAllMemBufMap.map fun x => (x.deviceAddr, ptrs.buf x.deviceAddr)
  bufs : ∀ x ∈ blk.blockAllMemBufMap, s.bufs.get (ptrs.buf x.deviceAddr) =
    some (bufAt (ptrs.block blk.deviceAddrBase) x)

namespace HasBlock

theorem addr_lt (h : HasBlock ptrs s blk) (hbufs : blk.blockAllMemBufMap = l ++ x :: r) :
    (∀ y ∈ l, y.deviceAddr < x.deviceAddr) ∧ ∀ y ∈ r, x.deviceAddr < y.deviceAddr := by
  obtain ⟨map, -, hmap⟩ := h.block
  rw [hbufs, List.map_append, List.map_cons] at hmap
  obtain ⟨hl, hr⟩ := OrdMap.lt_middle hmap
  exact ⟨fun y hy => hl _ (List.mem_map_of_mem hy), fun y hy => hr _ (List.mem_map_of_mem hy)⟩

/-- Bufs at two addresses are two objects. -/
theorem ptr_ne (h : HasBlock ptrs s blk) (hx : x ∈ blk.blockAllMemBufMap)
    (hy : y ∈ blk.blockAllMemBufMap) (hne : y.deviceAddr ≠ x.deviceAddr) :
    ptrs.buf y.deviceAddr ≠ ptrs.buf x.deviceAddr := by
  intro heq
  have hget := h.bufs y hy
  rw [heq, h.bufs x hx] at hget
  exact hne (congrArg DynamicMemBuf.deviceAddr (Option.some.inj hget)).symm

/-- The pointers around a buf are those to other objects. -/
theorem ptr_ne_at (h : HasBlock ptrs s blk) (hbufs : blk.blockAllMemBufMap = l ++ x :: r) :
    ∀ y ∈ l ++ r, y ∈ blk.blockAllMemBufMap ∧ ptrs.buf y.deviceAddr ≠ ptrs.buf x.deviceAddr := by
  obtain ⟨hl, hr⟩ := h.addr_lt hbufs
  have hx : x ∈ blk.blockAllMemBufMap := by
    rw [hbufs]
    simp
  intro y hy
  have hmem : y ∈ blk.blockAllMemBufMap := by
    rw [hbufs]
    rcases List.mem_append.mp hy with hy | hy
    · simp [hy]
    · simp [hy]
  refine ⟨hmem, h.ptr_ne hx hmem ?_⟩
  rcases List.mem_append.mp hy with hy | hy
  · exact (hl y hy).ne
  · exact (hr y hy).ne'

/-- What the pointers of a block do not lead to may change. -/
theorem frame (h : HasBlock ptrs s blk)
    (hblock : ptrs'.block blk.deviceAddrBase = ptrs.block blk.deviceAddrBase)
    (hptrs : ∀ x ∈ blk.blockAllMemBufMap, ptrs'.buf x.deviceAddr = ptrs.buf x.deviceAddr)
    (hblocks : s'.blocks.get (ptrs.block blk.deviceAddrBase) =
      s.blocks.get (ptrs.block blk.deviceAddrBase))
    (hbufs : ∀ x ∈ blk.blockAllMemBufMap,
      s'.bufs.get (ptrs.buf x.deviceAddr) = s.bufs.get (ptrs.buf x.deviceAddr)) :
    HasBlock ptrs' s' blk where
  block := by
    obtain ⟨map, hget, hmap⟩ := h.block
    refine ⟨map, by rw [hblock, hblocks, hget], ?_⟩
    rw [hmap]
    exact List.map_congr_left fun x hx => by rw [hptrs x hx]
  bufs x hx := by rw [hptrs x hx, hbufs x hx, h.bufs x hx, hblock]

theorem writeBuf {f : DynamicMemBuf → DynamicMemBuf} (h : HasBlock ptrs s blk)
    (hbufs : blk.blockAllMemBufMap = l ++ x :: r)
    (hf : f (bufAt (ptrs.block blk.deviceAddrBase) x) =
      bufAt (ptrs.block blk.deviceAddrBase) z)
    (haddr : z.deviceAddr = x.deviceAddr) :
    HasBlock ptrs (s.writeBuf (ptrs.buf x.deviceAddr) f) (blk.setBufs (l ++ z :: r)) where
  block := by
    obtain ⟨map, hget, hmap⟩ := h.block
    refine ⟨map, hget, ?_⟩
    rw [hmap, hbufs]
    show _ = (l ++ z :: r).map _
    simp only [List.map_append, List.map_cons, haddr]
  bufs y hy := by
    have hothers := h.ptr_ne_at hbufs
    change (s.bufs.modify (ptrs.buf x.deviceAddr) f).get (ptrs.buf y.deviceAddr) = _
    rcases List.mem_append.mp hy with hy | hy
    · obtain ⟨hmem, hne⟩ := hothers y (List.mem_append_left _ hy)
      rw [Heap.get_modify_ne _ _ hne]
      exact h.bufs y hmem
    · rcases List.mem_cons.mp hy with rfl | hy
      · rw [haddr, Heap.get_modify_self, h.bufs x (by rw [hbufs]; simp), Option.map_some, hf]
        rfl
      · obtain ⟨hmem, hne⟩ := hothers y (List.mem_append_right _ hy)
        rw [Heap.get_modify_ne _ _ hne]
        exact h.bufs y hmem

/-- A new buf between two others. -/
theorem newMemBuf (h : HasBlock ptrs s blk) (hbufs : blk.blockAllMemBufMap = l ++ r)
    (hl : ∀ y ∈ l, y.deviceAddr < x.deviceAddr) (hr : ∀ y ∈ r, x.deviceAddr < y.deviceAddr) :
    HasBlock (ptrs.setBuf x.deviceAddr s.bufs.next)
      (s.newMemBuf (bufAt (ptrs.block blk.deviceAddrBase) x)) (blk.setBufs (l ++ x :: r)) := by
  have hother : ∀ y ∈ l ++ r,
      (ptrs.setBuf x.deviceAddr s.bufs.next).buf y.deviceAddr = ptrs.buf y.deviceAddr := by
    intro y hy
    refine Function.update_of_ne ?_ _ _
    rcases List.mem_append.mp hy with hy | hy
    · exact (hl y hy).ne
    · exact (hr y hy).ne'
  have hself : (ptrs.setBuf x.deviceAddr s.bufs.next).buf x.deviceAddr = s.bufs.next :=
    Function.update_self ..
  refine ⟨?_, fun y hy => ?_⟩
  · obtain ⟨map, hget, hmap⟩ := h.block
    refine ⟨map.emplace x.deviceAddr s.bufs.next, ?_, ?_⟩
    · show (s.blocks.modify (ptrs.block blk.deviceAddrBase) _).get
        (ptrs.block blk.deviceAddrBase) = _
      rw [Heap.get_modify_self, hget]
      rfl
    · rw [hbufs, List.map_append] at hmap
      rw [OrdMap.entries_emplace_middle hmap (by simpa using hl) (by simpa using hr)]
      show _ = (l ++ x :: r).map _
      rw [List.map_append, List.map_cons, hself]
      congr 1
      · exact List.map_congr_left fun y hy => by rw [hother y (List.mem_append_left _ hy)]
      · congr 1
        exact List.map_congr_left fun y hy => by rw [hother y (List.mem_append_right _ hy)]
  · have hkeep : ∀ y ∈ l ++ r, (s.bufs.new (bufAt (ptrs.block blk.deviceAddrBase) x)).get
        ((ptrs.setBuf x.deviceAddr s.bufs.next).buf y.deviceAddr) =
        some (bufAt (ptrs.block blk.deviceAddrBase) y) := by
      intro y hy
      have hget := h.bufs y (by rw [hbufs]; exact hy)
      rw [hother y hy, Heap.get_new, if_neg (Heap.ne_next hget), hget]
    change (s.bufs.new _).get _ = _
    rcases List.mem_append.mp hy with hy | hy
    · exact hkeep y (List.mem_append_left _ hy)
    · rcases List.mem_cons.mp hy with rfl | hy
      · rw [hself, Heap.get_new_self]
        rfl
      · exact hkeep y (List.mem_append_right _ hy)

theorem deleteMemBuf (h : HasBlock ptrs s blk) (hbufs : blk.blockAllMemBufMap = l ++ x :: r) :
    HasBlock ptrs (s.deleteMemBuf (ptrs.block blk.deviceAddrBase) x.deviceAddr
      (ptrs.buf x.deviceAddr)) (blk.setBufs (l ++ r)) where
  block := by
    obtain ⟨map, hget, hmap⟩ := h.block
    refine ⟨map.erase x.deviceAddr, ?_, ?_⟩
    · show (s.blocks.modify (ptrs.block blk.deviceAddrBase) _).get
        (ptrs.block blk.deviceAddrBase) = _
      rw [Heap.get_modify_self, hget]
      rfl
    · rw [hbufs, List.map_append, List.map_cons] at hmap
      rw [OrdMap.entries_erase_middle hmap]
      exact List.map_append.symm
  bufs y hy := by
    obtain ⟨hmem, hne⟩ := h.ptr_ne_at hbufs y hy
    change (s.bufs.delete (ptrs.buf x.deviceAddr)).get (ptrs.buf y.deviceAddr) = _
    rw [Heap.get_delete_ne _ hne]
    exact h.bufs y hmem

theorem readBuf (h : HasBlock ptrs s blk) (hx : x ∈ blk.blockAllMemBufMap) :
    s.readBuf (ptrs.buf x.deviceAddr) = .ok (bufAt (ptrs.block blk.deviceAddrBase) x) := by
  rw [DynamicMemPoolBestFitOpt.readBuf, h.bufs x hx]

/-- The block, and the neighbours in its map. -/
theorem readBlock (h : HasBlock ptrs s blk) (hbufs : blk.blockAllMemBufMap = l ++ x :: r) :
    ∃ map : OrdMap Nat Nat, s.readBlock (ptrs.block blk.deviceAddrBase) =
        .ok ⟨blk.deviceAddrBase, blk.memBlockSize, blk.streamId, map⟩ ∧
      map.find? x.deviceAddr = some (ptrs.buf x.deviceAddr) ∧
      map.upper? x.deviceAddr =
        r.head?.map (fun y => (y.deviceAddr, ptrs.buf y.deviceAddr)) ∧
      map.below? x.deviceAddr =
        l.getLast?.map fun y => (y.deviceAddr, ptrs.buf y.deviceAddr) := by
  obtain ⟨map, hget, hmap⟩ := h.block
  rw [hbufs, List.map_append, List.map_cons] at hmap
  refine ⟨map, by rw [DynamicMemPoolBestFitOpt.readBlock, hget], OrdMap.find?_middle hmap, ?_, ?_⟩
  · rw [OrdMap.upper?_middle hmap, List.head?_map]
  · rw [OrdMap.below?_middle hmap, List.getLast?_map]

end HasBlock

/-! ## The index of one pool -/

/-- The element of each of the first 128 streams has the entries of the index, with the
pointers to the bufs in place of their addresses. -/
def HasIndex (ptr : Nat → Nat) (v : List SizeMapMemBuf) (index : Nat → SizeMapMemBuf) : Prop :=
  ∀ i, i < 128 → ∃ map, v[i]? = some map ∧
    map.entries = (index i).entries.map fun e => (e.1, ptr e.2)

namespace HasIndex

variable {ptr ptr' : Nat → Nat} {v : List SizeMapMemBuf} {index index' : Nat → SizeMapMemBuf}
  {i : Nat}

theorem congr (h : HasIndex ptr v index)
    (hptr : ∀ i, ∀ e ∈ (index i).entries, ptr' e.2 = ptr e.2) : HasIndex ptr' v index := by
  intro i hi
  obtain ⟨map, hget, hmap⟩ := h i hi
  refine ⟨map, hget, ?_⟩
  rw [hmap]
  exact List.map_congr_left fun e he => by rw [hptr i e he]

theorem of_eq (h : HasIndex ptr v index) (heq : ∀ i, index' i = index i) :
    HasIndex ptr v index' := by
  intro i hi
  rw [heq]
  exact h i hi

/-- A write to one element. -/
theorem set {map map' : SizeMapMemBuf} (h : HasIndex ptr v index) (hi : i < 128)
    (hmap : map.entries = map'.entries.map fun e => (e.1, ptr e.2)) :
    HasIndex ptr (v.set i map) (Function.update index i map') := by
  intro j hj
  obtain ⟨old, hold, hentries⟩ := h j hj
  by_cases hji : j = i
  · subst hji
    refine ⟨map, ?_, by rw [Function.update_self, hmap]⟩
    rw [List.getElem?_set_self (List.getElem?_eq_some_iff.mp hold).1]
  · refine ⟨old, ?_, by rw [Function.update_of_ne hji, hentries]⟩
    rw [List.getElem?_set_ne (Ne.symm hji), hold]

theorem subscript (h : HasIndex ptr v index) (hi : i < 128) :
    ∃ map, Opt.subscript v i = .ok map ∧
      map.entries = (index i).entries.map fun e => (e.1, ptr e.2) := by
  obtain ⟨map, hget, hmap⟩ := h i hi
  exact ⟨map, by rw [Opt.subscript, hget], hmap⟩

end HasIndex

/-- The entries of an index lead to bufs that are there. -/
def Live (ptr : Nat → Nat) (index : SizeMapMemBuf) (s : DynamicMemPoolBestFitOpt) : Prop :=
  ∀ e ∈ index.entries, ∃ z, s.bufs.get (ptr e.2) = some z ∧ z.deviceAddr = e.2

/-! ## Nothing else changes -/

/-- Only the block at `q` and its bufs, and the statistics and the index of the pool `b`. -/
structure Within (q : Nat) (b : Bool) (s s' : DynamicMemPoolBestFitOpt) : Prop where
  blocks : ∀ q', q' ≠ q → s'.blocks.get q' = s.blocks.get q'
  bufs : ∀ p y, s.bufs.get p = some y → y.memBlockPtr ≠ q → s'.bufs.get p = some y
  other : s'.mng (!b) = s.mng (!b)
  list : (s'.mng b).memBlockList = (s.mng b).memBlockList
  memBlocks : (s'.mng b).memBlocks = (s.mng b).memBlocks
  unitSize : (s'.mng b).unitSize = (s.mng b).unitSize
  config : s'.configUnitSize = s.configUnitSize
  eager : s'.isTriggerEagerFree = s.isTriggerEagerFree

namespace Within

theorem refl (q : Nat) (b : Bool) (s : DynamicMemPoolBestFitOpt) : Within q b s s :=
  ⟨fun _ _ => rfl, fun _ _ h _ => h, rfl, rfl, rfl, rfl, rfl, rfl⟩

theorem trans (h : Within q b s s₁) (h' : Within q b s₁ s') : Within q b s s' where
  blocks q' hne := (h'.blocks q' hne).trans (h.blocks q' hne)
  bufs p y hget hne := h'.bufs p y (h.bufs p y hget hne) hne
  other := h'.other.trans h.other
  list := h'.list.trans h.list
  memBlocks := h'.memBlocks.trans h.memBlocks
  unitSize := h'.unitSize.trans h.unitSize
  config := h'.config.trans h.config
  eager := h'.eager.trans h.eager

theorem writeBuf {p : Nat} {z : DynamicMemBuf} (hget : s.bufs.get p = some z)
    (hq : z.memBlockPtr = q) (f : DynamicMemBuf → DynamicMemBuf) :
    Within q b s (s.writeBuf p f) := by
  refine ⟨fun _ _ => rfl, fun p' y hy hne => ?_, rfl, rfl, rfl, rfl, rfl, rfl⟩
  show (s.bufs.modify p f).get p' = some y
  rw [Heap.get_modify_ne, hy]
  rintro rfl
  rw [hget] at hy
  cases hy
  exact hne hq

theorem newMemBuf (b : Bool) (z : DynamicMemBuf) (s : DynamicMemPoolBestFitOpt) :
    Within z.memBlockPtr b s (s.newMemBuf z) := by
  refine ⟨fun q' hne => Heap.get_modify_ne _ _ hne, fun p y hy _ => ?_, rfl, rfl, rfl, rfl, rfl,
    rfl⟩
  show (s.bufs.new z).get p = some y
  rw [Heap.get_new, if_neg (Heap.ne_next hy), hy]

theorem deleteMemBuf {p : Nat} {z : DynamicMemBuf} (hget : s.bufs.get p = some z)
    (hq : z.memBlockPtr = q) (a : Nat) : Within q b s (s.deleteMemBuf q a p) := by
  refine ⟨fun q' hne => Heap.get_modify_ne _ _ hne, fun p' y hy hne => ?_, rfl, rfl, rfl, rfl, rfl,
    rfl⟩
  show (s.bufs.delete p).get p' = some y
  rw [Heap.get_delete_ne, hy]
  rintro rfl
  rw [hget] at hy
  cases hy
  exact hne hq

/-- Writes to the statistics and to the index of a pool. -/
theorem setMng {m : MemStatusManager} (q : Nat) (hlist : m.memBlockList = (s.mng b).memBlockList)
    (hmemBlocks : m.memBlocks = (s.mng b).memBlocks) (hunit : m.unitSize = (s.mng b).unitSize) :
    Within q b s (s.setMng b m) := by
  refine ⟨fun _ _ => by rw [blocks_setMng], fun p y hy _ => by rw [bufs_setMng, hy], ?_, ?_, ?_, ?_,
    ?_, ?_⟩
  · rw [mng_setMng, if_neg (by cases b <;> simp)]
  · rw [mng_setMng, if_pos rfl, hlist]
  · rw [mng_setMng, if_pos rfl, hmemBlocks]
  · rw [mng_setMng, if_pos rfl, hunit]
  · cases b <;> rfl
  · cases b <;> rfl

theorem setSizeMap (q : Nat) (b : Bool) (i : Nat) (map : SizeMapMemBuf)
    (s : DynamicMemPoolBestFitOpt) : Within q b s (s.setSizeMap b .idle i map) :=
  setMng q rfl rfl rfl

theorem setMps (q : Nat) (b : Bool) (f : DeviceState → DeviceState)
    (s : DynamicMemPoolBestFitOpt) : Within q b s (s.setMps b f) :=
  setMng q rfl rfl rfl

end Within

/-! ## The writes to an index -/

section Index

variable {index : Nat → SizeMapMemBuf} {i n a : Nat}

@[simp] theorem idleMemBufs_setSizeMap (b : Bool) (i : Nat) (map : SizeMapMemBuf)
    (s : DynamicMemPoolBestFitOpt) :
    ((s.setSizeMap b .idle i map).mng b).idleMemBufs = (s.mng b).idleMemBufs.set i map := by
  rw [setSizeMap, mng_setMng, if_pos rfl]
  rfl

@[simp] theorem mps_setSizeMap (b : Bool) (i : Nat) (map : SizeMapMemBuf)
    (s : DynamicMemPoolBestFitOpt) :
    ((s.setSizeMap b .idle i map).mng b).mps = (s.mng b).mps := by
  rw [setSizeMap, mng_setMng, if_pos rfl]
  rfl

@[simp] theorem bufs_setMps (b : Bool) (f : DeviceState → DeviceState)
    (s : DynamicMemPoolBestFitOpt) : (s.setMps b f).bufs = s.bufs := bufs_setMng ..

@[simp] theorem blocks_setMps (b : Bool) (f : DeviceState → DeviceState)
    (s : DynamicMemPoolBestFitOpt) : (s.setMps b f).blocks = s.blocks := blocks_setMng ..

@[simp] theorem idleMemBufs_setMps (b : Bool) (f : DeviceState → DeviceState)
    (s : DynamicMemPoolBestFitOpt) :
    ((s.setMps b f).mng b).idleMemBufs = (s.mng b).idleMemBufs := by
  rw [setMps, mng_setMng, if_pos rfl]

@[simp] theorem mps_setMps (b : Bool) (f : DeviceState → DeviceState)
    (s : DynamicMemPoolBestFitOpt) : ((s.setMps b f).mng b).mps = f (s.mng b).mps := by
  rw [setMps, mng_setMng, if_pos rfl]

/-- The heap alone matters for a block. -/
theorem HasBlock.of_heap {t : DynamicMemPoolBestFitOpt} (h : HasBlock ptrs s blk)
    (hbufs : t.bufs = s.bufs) (hblocks : t.blocks = s.blocks) : HasBlock ptrs t blk :=
  h.frame rfl (fun _ _ => rfl) (by rw [hblocks]) fun _ _ => by rw [hbufs]

theorem addMemBuf_sees (h : HasIndex ptrs.buf (s.mng b).idleMemBufs index) (hi : i < 128)
    (n a : Nat) : ∃ map, s.addMemBuf b .idle i n (ptrs.buf a) = .ok (s.setSizeMap b .idle i map) ∧
      map.entries = ((index i).emplace n a).entries.map fun e => (e.1, ptrs.buf e.2) := by
  obtain ⟨map, hsub, hmap⟩ := h.subscript hi
  refine ⟨map.emplace n (ptrs.buf a), ?_, MultiMap.entries_emplace_map hmap n a⟩
  have hsub : subscript ((s.mng b).container .idle) i = .ok map := hsub
  rw [addMemBuf, if_neg (by decide), hsub]
  rfl

/-- The entry of a buf is found by its size and its address. -/
theorem eraseMemBufByStatus_sees (h : HasIndex ptrs.buf (s.mng b).idleMemBufs index) (hi : i < 128)
    (hlive : Live ptrs.buf (index i) s) (hmem : (n, a) ∈ (index i).entries) :
    ∃ map, s.eraseMemBufByStatus n a b .idle i = .ok (s.setSizeMap b .idle i map) ∧
      map.entries = ((index i).eraseFirst fun e => decide (e = (n, a))).entries.map
        fun e => (e.1, ptrs.buf e.2) := by
  obtain ⟨map, hsub, hmap⟩ := h.subscript hi
  have hstops : ∀ e ∈ (index i).entries,
      s.stopsAt n a (e.1, ptrs.buf e.2) = decide (e = (n, a)) := by
    intro e he
    obtain ⟨z, hz, haddr⟩ := hlive e he
    simp only [stopsAt, hz, haddr]
    rw [← Bool.decide_and, decide_eq_decide]
    exact (Prod.ext_iff (x := e) (y := (n, a))).symm
  refine ⟨map.eraseFirst (s.stopsAt n a), ?_, MultiMap.entries_eraseFirst_map hmap hstops⟩
  have hsub : subscript ((s.mng b).container .idle) i = .ok map := hsub
  have hfind : ∃ e ∈ (index i).entries,
      map.entries.find? (s.stopsAt n a) = some (e.1, ptrs.buf e.2) := by
    cases hfind : map.entries.find? (s.stopsAt n a) with
    | none =>
        rw [hmap, List.find?_eq_none] at hfind
        refine absurd ?_ (hfind _ (List.mem_map_of_mem hmem))
        rw [hstops _ hmem]
        exact decide_eq_true rfl
    | some e =>
        have he := List.mem_of_find?_eq_some hfind
        rw [hmap] at he
        obtain ⟨e', he', rfl⟩ := List.mem_map.mp he
        exact ⟨e', he', rfl⟩
  obtain ⟨e, he, hfind⟩ := hfind
  obtain ⟨z, hz, -⟩ := hlive e he
  have hread : s.readBuf (ptrs.buf e.2) = .ok z := by rw [readBuf, hz]
  rw [eraseMemBufByStatus, hsub]
  dsimp only [bind, Except.bind]
  rw [hfind]
  dsimp only
  rw [hread]

end Index

/-! ## A buf goes into use -/

section Divide

variable {split : Nat → Nat → Bool} {size : Nat} {index : Nat → SizeMapMemBuf}

/-- The rest of an idle buf becomes the next object, under the stream of the block. -/
theorem splitMemBuf_sees (hblk : HasBlock ptrs s blk)
    (hindex : HasIndex ptrs.buf (s.mng b).idleMemBufs index)
    (hbufs : blk.blockAllMemBufMap = l ++ x :: r) (hidle : x.status = .idle)
    (hstream : blk.streamId < 128) (hpos : 0 < size) (hlt : size < x.size)
    (hstart : 0 < x.deviceAddr) (hend : x.deviceAddr + x.size ≤ sizeBound)
    (hr : ∀ y ∈ r, x.deviceAddr + x.size ≤ y.deviceAddr)
    (hnew : ∀ i, ∀ e ∈ (index i).entries, e.2 ≠ x.deviceAddr + size) :
    ∃ ptrs' s', s.splitMemBuf size (ptrs.buf x.deviceAddr) b blk.streamId = .ok s' ∧
      Within (ptrs.block blk.deviceAddrBase) b s s' ∧
      HasBlock ptrs' s' (blk.setBufs (l ++ { x with size := size } :: restOf size x :: r)) ∧
      HasIndex ptrs'.buf (s'.mng b).idleMemBufs (Function.update index blk.streamId
        ((index blk.streamId).emplace (restOf size x).size (restOf size x).deviceAddr)) ∧
      (s'.mng b).mps = (s.mng b).mps ∧ ptrs'.block = ptrs.block ∧
      ∀ a, a ≠ x.deviceAddr + size → ptrs'.buf a = ptrs.buf a := by
  have hx : x ∈ blk.blockAllMemBufMap := by
    rw [hbufs]
    simp
  obtain ⟨hl, -⟩ := hblk.addr_lt hbufs
  obtain ⟨map', hblock', -⟩ := hblk.readBlock hbufs
  have hrest : (⟨addSize x.deviceAddr size, ptrs.block blk.deviceAddrBase, x.status,
      subSize x.size size⟩ : DynamicMemBuf) =
      bufAt (ptrs.block blk.deviceAddrBase) (restOf size x) := by
    rw [addSize_eq (by omega), subSize_eq (by omega) (by omega), hidle]
    rfl
  -- the buf shrinks, and the new one gets its place behind it
  have hblk₁ := hblk.writeBuf (f := fun b => { b with size := size })
    (z := { x with size := size }) hbufs rfl rfl
  have hwithin₁ := Within.writeBuf (b := b) (hblk.bufs x hx) rfl fun b => { b with size := size }
  generalize hs₁ : (s.writeBuf (ptrs.buf x.deviceAddr) fun b => { b with size := size }) = s₁
    at hblk₁ hwithin₁
  have hbufs₁ : (blk.setBufs (l ++ { x with size := size } :: r)).blockAllMemBufMap =
      (l ++ [{ x with size := size }]) ++ r := by
    rw [List.append_assoc]
    rfl
  have hbefore : ∀ y ∈ l ++ [{ x with size := size }],
      y.deviceAddr < (restOf size x).deviceAddr := by
    intro y hy
    show y.deviceAddr < x.deviceAddr + size
    rcases List.mem_append.mp hy with hy | hy
    · have := hl y hy
      omega
    · rw [List.mem_singleton.mp hy]
      show x.deviceAddr < x.deviceAddr + size
      omega
  have hbehind : ∀ y ∈ r, (restOf size x).deviceAddr < y.deviceAddr := by
    intro y hy
    have := hr y hy
    show x.deviceAddr + size < y.deviceAddr
    omega
  have hblk₂ := hblk₁.newMemBuf hbufs₁ hbefore hbehind
  have hwithin₂ := hwithin₁.trans
    (Within.newMemBuf b (bufAt (ptrs.block blk.deviceAddrBase) (restOf size x)) s₁)
  rw [List.append_assoc] at hblk₂
  have hself : (ptrs.setBuf (restOf size x).deviceAddr s₁.bufs.next).buf
      (restOf size x).deviceAddr = s.bufs.next := by
    rw [← hs₁]
    exact Function.update_self ..
  have hother : ∀ a, a ≠ x.deviceAddr + size →
      (ptrs.setBuf (restOf size x).deviceAddr s₁.bufs.next).buf a = ptrs.buf a :=
    fun a ha => Function.update_of_ne ha _ _
  -- no entry of the index is at the new address
  have hindex₂ : HasIndex (ptrs.setBuf (restOf size x).deviceAddr s₁.bufs.next).buf
      ((s₁.newMemBuf (bufAt (ptrs.block blk.deviceAddrBase) (restOf size x))).mng b).idleMemBufs
      index := by
    have hmng : s₁.mng b = s.mng b := by
      rw [← hs₁]
      rfl
    rw [mng_newMemBuf, hmng]
    exact hindex.congr fun i e he => hother e.2 (hnew i e he)
  obtain ⟨map, hadd, hmap⟩ := addMemBuf_sees hindex₂ hstream (restOf size x).size
    (restOf size x).deviceAddr
  refine ⟨ptrs.setBuf (restOf size x).deviceAddr s₁.bufs.next, _, ?_,
    hwithin₂.trans (Within.setSizeMap _ b blk.streamId map _),
    hblk₂.of_heap (bufs_setSizeMap ..) (blocks_setSizeMap ..), ?_, ?_, rfl, hother⟩
  · rw [splitMemBuf, hblk.readBuf hx]
    dsimp only [bind, Except.bind, bufAt]
    rw [hblock']
    dsimp only
    rw [hrest, hs₁, hidle, subSize_eq (by omega) (by omega), ← hself]
    exact hadd
  · rw [idleMemBufs_setSizeMap]
    exact hindex₂.set hstream hmap
  · rw [mps_setSizeMap, mng_newMemBuf, ← hs₁]
    rfl

variable (split) in
/-- The steps that `FindMemBufInSpecifiedMng` and `CreateMemBlockAndMemBuf` have in common. -/
theorem divideUse_sees (hblk : HasBlock ptrs s blk)
    (hindex : HasIndex ptrs.buf (s.mng b).idleMemBufs index)
    (hbufs : blk.blockAllMemBufMap = l ++ x :: r) (hidle : x.status = .idle)
    (hstream : blk.streamId < 128) (hpos : 0 < size)
    (hlt : split size x.size = true → size < x.size)
    (hstart : 0 < x.deviceAddr) (hend : x.deviceAddr + x.size ≤ sizeBound)
    (hr : ∀ y ∈ r, x.deviceAddr + x.size ≤ y.deviceAddr)
    (hnew : split size x.size = true →
      ∀ i, ∀ e ∈ (index i).entries, e.2 ≠ x.deviceAddr + size) :
    ∃ ptrs' s₁ s₂, s.divideMemBuf (split size x.size) size (ptrs.buf x.deviceAddr) b blk.streamId =
        .ok s₁ ∧ s₁.writeBuf (ptrs.buf x.deviceAddr) (fun b => { b with status := .used }) = s₂ ∧
      s₂.readBuf (ptrs.buf x.deviceAddr) =
        .ok (bufAt (ptrs.block blk.deviceAddrBase) (usedBuf split size x)) ∧
      Within (ptrs.block blk.deviceAddrBase) b s s₂ ∧
      HasBlock ptrs' s₂ (blk.setBufs (l ++ takeBufs split size x ++ r)) ∧
      HasIndex ptrs'.buf (s₂.mng b).idleMemBufs (Function.update index blk.streamId
        (addRest split size x (index blk.streamId))) ∧
      (s₂.mng b).mps = (s.mng b).mps ∧ ptrs'.block = ptrs.block ∧
      ∀ a, (split size x.size = true → a ≠ x.deviceAddr + size) → ptrs'.buf a = ptrs.buf a := by
  -- what is left to do is the write of the status
  have huse : ∀ (ptrs' : Pointers) (s₁ : DynamicMemPoolBestFitOpt) (x₁ : DynamicMem.DynamicMemBuf)
      (r' : List DynamicMem.DynamicMemBuf), HasBlock ptrs' s₁ (blk.setBufs (l ++ x₁ :: r')) →
      x₁.deviceAddr = x.deviceAddr → x₁.size = takeSize split size x →
      ptrs'.block = ptrs.block → ptrs'.buf x.deviceAddr = ptrs.buf x.deviceAddr →
      (s₁.writeBuf (ptrs.buf x.deviceAddr) fun b => { b with status := .used }).readBuf
          (ptrs.buf x.deviceAddr) =
        .ok (bufAt (ptrs.block blk.deviceAddrBase) (usedBuf split size x)) ∧
      Within (ptrs.block blk.deviceAddrBase) b s₁
        (s₁.writeBuf (ptrs.buf x.deviceAddr) fun b => { b with status := .used }) ∧
      HasBlock ptrs' (s₁.writeBuf (ptrs.buf x.deviceAddr) fun b => { b with status := .used })
        (blk.setBufs (l ++ usedBuf split size x :: r')) := by
    intro ptrs' s₁ x₁ r' hblk₁ haddr hsize hblock hptr
    have hx₁ : x₁ ∈ (blk.setBufs (l ++ x₁ :: r')).blockAllMemBufMap := by
      show x₁ ∈ l ++ x₁ :: r'
      simp
    have hget := hblk₁.bufs x₁ hx₁
    have hblk₂ := hblk₁.writeBuf (f := fun b => { b with status := .used })
      (z := usedBuf split size x) rfl (by simp only [bufAt, haddr, hsize]; rfl) haddr.symm
    rw [haddr, hptr] at hblk₂ hget
    have hread := hblk₂.readBuf (x := usedBuf split size x) (by
      show _ ∈ l ++ usedBuf split size x :: r'
      simp)
    rw [hblock, show (usedBuf split size x).deviceAddr = x.deviceAddr from rfl, hptr] at hread
    exact ⟨hread, Within.writeBuf hget (by rw [hblock]; rfl) _, hblk₂⟩
  by_cases hsplit : split size x.size = true
  · have hsize : size = takeSize split size x := by rw [takeSize, if_pos hsplit]
    obtain ⟨ptrs', s₁, hs₁, hwithin, hblk₁, hindex₁, hmps, hblock, hptrs⟩ :=
      splitMemBuf_sees hblk hindex hbufs hidle hstream hpos (hlt hsplit) hstart hend hr
        (hnew hsplit)
    obtain ⟨hread, hwithin', hblk₂⟩ := huse _ _ _ _ hblk₁ rfl hsize hblock (hptrs _ (by omega))
    refine ⟨ptrs', s₁, _, by rw [divideMemBuf, if_pos hsplit, hs₁], rfl, hread,
      hwithin.trans hwithin', ?_, ?_, hmps, hblock, fun a ha => hptrs a (ha hsplit)⟩
    · rw [takeBufs, if_pos hsplit, List.append_assoc]
      rw [usedBuf, ← hsize] at hblk₂
      exact hblk₂
    · rw [addRest, if_pos hsplit]
      exact hindex₁
  · have hsize : x.size = takeSize split size x := by rw [takeSize, if_neg hsplit]
    have hsame : blk.setBufs (l ++ x :: r) = blk := by
      rw [← hbufs]
      rfl
    obtain ⟨hread, hwithin, hblk'⟩ := huse ptrs s x r (by rw [hsame]; exact hblk)
      rfl hsize rfl rfl
    refine ⟨ptrs, s, _, by rw [divideMemBuf, if_neg hsplit], rfl, hread, hwithin, ?_, ?_, rfl, rfl,
      fun _ _ => rfl⟩
    · rw [takeBufs, if_neg hsplit, List.append_assoc]
      rw [usedBuf, ← hsize] at hblk'
      exact hblk'
    · refine hindex.of_eq fun i => ?_
      rw [addRest, if_neg hsplit, Function.update_eq_self]

end Divide

end DynamicMemPoolBestFitOpt

end Ccbase.DynamicMem.Opt
