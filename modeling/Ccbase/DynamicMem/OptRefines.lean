import Ccbase.DynamicMem.OptFree

/-!
# Runs of the two classes

With the same tests for splitting and the same answers of the device, the two classes
do the same over every run of allocations and frees: each call returns the same, and
what the pointers of the one lead to is what the other has.
-/

namespace Ccbase.DynamicMem

open Ccbase.Lib

/-- What a call returns, 0 for nothing. -/
def Client.returned (t : SplitTests) (c : Client) : Call → Nat
  | .alloc size fromPersistentMem streamId d =>
      ((c.pool.allocTensorMem t size fromPersistentMem false streamId d).bind Prod.fst).getD
        Opt.nullptr
  | .free _ => Opt.nullptr

/-- The vectors of `DynamicMemPoolBestFitOpt` have an element for the stream. -/
def Call.InVectors : Call → Prop
  | .alloc _ _ streamId _ => streamId < 128
  | .free _ => True

instance decidableInVectors (l : Call) : Decidable l.InVectors :=
  match l with
  | .alloc _ _ streamId _ => inferInstanceAs (Decidable (streamId < 128))
  | .free _ => inferInstanceAs (Decidable True)

namespace Opt

open DynamicMem.DynamicMemPoolBestFit

/-- What the device would answer if eager free was on. -/
structure EagerAnswer where
  totalMemSize : Nat
  threshold : Nat
  eagerAddr : Nat
  eagerSize : Nat
  deriving DecidableEq, Repr

/-- The answers to a request, with `IsEnableEagerFree` false. -/
def EagerAnswer.answer (e : EagerAnswer) (d : DynamicMem.DeviceAnswer) : DeviceAnswer where
  freeMemSize := d.freeMemSize
  addr := d.addr
  size := d.size
  totalMemSize := e.totalMemSize
  threshold := e.threshold
  isEnableEagerFree := false
  eagerAddr := e.eagerAddr
  eagerSize := e.eagerSize

/-- A call, and what it returns. -/
structure Observed where
  call : Call
  eager : EagerAnswer
  returned : Nat
  deriving DecidableEq, Repr

/-- A call of the plain class that a client of either may make. -/
def Observed.Plain (c : Client) (o : Observed) (c' : Client) : Prop :=
  c.exec .opt o.call = some c' ∧
    (c.Allowed o.call ∧ o.call.InVectors ∧ c.returned .opt o.call = o.returned)

namespace DynamicMemPoolBestFitOpt

/-- One call with `need_recycle` false: what it returns, and the pool then. -/
def exec (e : EagerAnswer) (s : DynamicMemPoolBestFitOpt) :
    Call → Except Fault (Nat × DynamicMemPoolBestFitOpt)
  | .alloc size fromPersistentMem streamId d =>
      s.allocTensorMem size fromPersistentMem false streamId (e.answer d)
  | .free a => (s.freeTensorMem a).map fun s => (nullptr, s)

def Step (s : DynamicMemPoolBestFitOpt) (o : Observed) (s' : DynamicMemPoolBestFitOpt) : Prop :=
  s.exec o.eager o.call = .ok (o.returned, s')

/-! ## What the pointers lead to -/

def viewBuf (s : DynamicMemPoolBestFitOpt) (p : Nat) : Option DynamicMem.DynamicMemBuf :=
  (s.bufs.get p).map fun b => ⟨b.deviceAddr, b.status, b.size⟩

/-- The block at `q`, with its bufs by value. -/
def viewBlock (s : DynamicMemPoolBestFitOpt) (q : Nat) :
    Option (DynamicMem.DynamicMemBlock DynamicMem.DynamicMemBuf) := do
  let memBlock ← s.blocks.get q
  let bufs ← memBlock.blockAllMemBufMap.entries.mapM fun e => s.viewBuf e.2
  some ⟨memBlock.deviceAddrBase, memBlock.memBlockSize, memBlock.streamId, bufs⟩

def viewBlocks (b : Bool) (s : DynamicMemPoolBestFitOpt) :
    Option (List (DynamicMem.DynamicMemBlock DynamicMem.DynamicMemBuf)) :=
  (s.mng b).memBlockList.mapM s.viewBlock

/-- The sizes and the addresses of the idle bufs of a stream. -/
def viewIndex (b : Bool) (streamId : Nat) (s : DynamicMemPoolBestFitOpt) :
    Option (List (Nat × Nat)) := do
  let map ← (s.mng b).idleMemBufs[streamId]?
  map.entries.mapM fun e => (s.viewBuf e.2).map fun x => (e.1, x.deviceAddr)

/-- A state shows a pool of the plain class, and every buf has the pointer to the block that
`FindMemBlock` finds for its address. -/
structure Agrees (s : DynamicMemPoolBestFitOpt) (p : DynamicMemPoolBestFit) : Prop where
  blocks : ∀ b, s.viewBlocks b = some (p.mng b).memBlockList
  index : ∀ b i, i < 128 → s.viewIndex b i = some (sizeMapOf (p.mng b).idleMemBufs i).entries
  mps : ∀ b, (s.mng b).mps = (p.mng b).mps
  memBlockPtr : ∀ b, ∀ q ∈ (s.mng b).memBlockList, ∀ memBlock, s.blocks.get q = some memBlock →
    ∀ e ∈ memBlock.blockAllMemBufMap.entries, ∃ y, s.bufs.get e.2 = some y ∧
      y.deviceAddr = e.1 ∧ s.findMemBlock y.deviceAddr b = some y.memBlockPtr

theorem mapM_map_some {α β γ : Type} {f : β → Option γ} {g : α → β} {h : α → γ} {xs : List α}
    (hf : ∀ x ∈ xs, f (g x) = some (h x)) : (xs.map g).mapM f = some (xs.map h) := by
  induction xs with
  | nil => rfl
  | cons x xs ih =>
      rw [List.map_cons, List.mapM_cons, hf x (List.mem_cons_self ..),
        ih fun y hy => hf y (List.mem_cons_of_mem x hy)]
      rfl

variable {s s' : DynamicMemPoolBestFitOpt} {p p' : DynamicMemPoolBestFit} {ptrs : Pointers}
  {b : Bool} {c c' : Client}

theorem HasBlock.viewBlock {blk : DynamicMem.DynamicMemBlock DynamicMem.DynamicMemBuf}
    (h : HasBlock ptrs s blk) : s.viewBlock (ptrs.block blk.deviceAddrBase) = some blk := by
  obtain ⟨map, hget, hmap⟩ := h.block
  have hbufs : map.entries.mapM (fun e => s.viewBuf e.2) = some blk.blockAllMemBufMap := by
    rw [hmap]
    refine (mapM_map_some (h := id) fun x hx => ?_).trans (by rw [List.map_id])
    rw [viewBuf, h.bufs x hx]
    rfl
  simp only [DynamicMemPoolBestFitOpt.viewBlock, hget, hbufs, Option.bind_eq_bind,
    Option.bind_some]

theorem Sees.agrees (h : Sees ptrs s p) (hinv : PoolInv p) : Agrees s p where
  blocks b := by
    rw [viewBlocks, h.list]
    exact (mapM_map_some (h := id) fun blk hblk => (h.blocks b blk hblk).viewBlock).trans
      (by rw [List.map_id])
  index b i hi := by
    obtain ⟨map, hget, hmap⟩ := h.index b i hi
    have hentries : map.entries.mapM (fun e => (s.viewBuf e.2).map fun x => (e.1, x.deviceAddr)) =
        some (sizeMapOf (p.mng b).idleMemBufs i).entries := by
      rw [hmap]
      refine (mapM_map_some (h := id) fun e he => ?_).trans (by rw [List.map_id])
      obtain ⟨y, hy, haddr⟩ := (laid_of_inv hinv).known b i e he
      obtain ⟨blk, hblk, hy⟩ := mem_allBufs.mp hy
      rw [viewBuf, ← haddr, (h.blocks b blk hblk).bufs y hy]
      exact congrArg some (Prod.ext rfl haddr)
    simp only [viewIndex, hget, Option.bind_eq_bind, Option.bind_some, hentries]
  mps := h.mps
  memBlockPtr b q hq memBlock hget e he := by
    rw [h.list] at hq
    obtain ⟨blk, hblk, rfl⟩ := List.mem_map.mp hq
    obtain ⟨map, hget', hmap⟩ := (h.blocks b blk hblk).block
    rw [hget] at hget'
    cases hget'
    have he : e ∈ map.entries := he
    rw [hmap] at he
    obtain ⟨x, hx, rfl⟩ := List.mem_map.mp he
    obtain ⟨L, R, l, r, hat⟩ := exists_at hblk hx
    refine ⟨_, (h.blocks b blk hblk).bufs x hx, rfl, ?_⟩
    show s.findMemBlock x.deviceAddr b = some (ptrs.block blk.deviceAddrBase)
    rw [findMemBlock_sees h, findMemBlock_at (hinv.mngs b).placed hat]
    rfl

/-! ## Calls and runs -/

theorem sees_fresh (recycled : Bool) (commonSize persistSize : Nat) (ptrs : Pointers) :
    Sees ptrs (fresh recycled commonSize persistSize)
      (DynamicMemPoolBestFit.fresh commonSize persistSize) where
  list b := by cases b <;> rfl
  blocks b blk hblk := by cases b <;> cases hblk
  streams b blk hblk := by cases b <;> cases hblk
  index b i hi := by
    have hget : (List.replicate 128 (MultiMap.empty : SizeMapMemBuf))[i]? = some .empty := by
      rw [List.getElem?_replicate, if_pos hi]
    cases b <;> exact ⟨.empty, hget, rfl⟩
  memBlocks b := by cases b <;> exact List.length_replicate
  mps b := by cases b <;> rfl
  unitSize b := by cases b <;> rfl
  config := rfl
  eager := rfl

/-- A call on a state that shows the pool of a client. -/
theorem Sees.exec (h : Sees ptrs s c.pool) (hinv : ClientInv c) {l : Call} (hs : c.Step .opt l c')
    (hl : l.InVectors) (e : EagerAnswer) :
    ∃ ptrs' s', s.exec e l = .ok (c.returned .opt l, s') ∧ Sees ptrs' s' c'.pool := by
  obtain ⟨hexec, hallowed⟩ := hs
  cases l with
  | alloc size b streamId d =>
      obtain ⟨res, hres, rfl⟩ := Option.map_eq_some_iff.mp hexec
      obtain ⟨ptrs', s', hs', hsees⟩ := allocTensorMem_sees (d := e.answer d) h hinv.pool
        hallowed.1 hallowed.2 rfl hl b hres
      refine ⟨ptrs', s', ?_, hsees⟩
      rw [Client.returned, hres]
      exact hs'
  | free a =>
      obtain ⟨p', hp', rfl⟩ := Option.map_eq_some_iff.mp hexec
      obtain ⟨live, hlive, rfl⟩ := List.mem_map.mp hallowed
      obtain ⟨x, ⟨b, hx⟩, hused, haddr, -⟩ := hinv.bufs live hlive
      rw [← haddr] at hp'
      obtain ⟨s', hs', hsees⟩ := freeTensorMem_sees h hinv.pool hx hused hp'
      refine ⟨ptrs, s', ?_, hsees⟩
      rw [DynamicMemPoolBestFitOpt.exec, ← haddr, hs']
      rfl

theorem run_calls {start : Client} {os : List Observed} (h : Run Observed.Plain start os c) :
    Run (Client.Step .opt) start (os.map Observed.call) c := by
  induction h with
  | nil => exact .nil
  | snoc _ hs ih =>
      rw [List.map_append]
      exact ih.snoc ⟨hs.1, hs.2.1⟩

theorem exists_sees_of_run {commonSize persistSize : Nat} {os : List Observed} (recycled : Bool)
    (h : Run Observed.Plain (Client.start commonSize persistSize) os c) :
    ClientInv c ∧ ∃ ptrs s, Run Step (fresh recycled commonSize persistSize) os s ∧
      Sees ptrs s c.pool := by
  induction h with
  | nil =>
      exact ⟨clientInv_start commonSize persistSize, ⟨id, id⟩, _, .nil,
        sees_fresh recycled commonSize persistSize _⟩
  | @snoc os o c c' hrun hs ih =>
      obtain ⟨hinv, ptrs, s, hrun', hsees⟩ := ih
      obtain ⟨hexec, hallowed, hstream, hreturned⟩ := hs
      obtain ⟨ptrs', s', hs', hsees'⟩ :=
        hsees.exec hinv ⟨hexec, hallowed⟩ hstream o.eager
      rw [hreturned] at hs'
      exact ⟨hinv.step splits_opt_find splits_opt_create ⟨hexec, hallowed⟩, ptrs', s',
        hrun'.snoc hs', hsees'⟩

/-- For every run of allocations and frees on the plain class, with the tests of the other class
for splitting, that class returns the same from every call, and in the end its pointers lead to
the same blocks, bufs, indexes and statistics. If the units of growth are not zero, both classes
return from every further call, and with the same. -/
theorem opt_refines_bestFit {commonSize persistSize : Nat} {os : List Observed} (recycled : Bool)
    (h : Run Observed.Plain (Client.start commonSize persistSize) os c) :
    ∃ s, Run Step (fresh recycled commonSize persistSize) os s ∧ Agrees s c.pool ∧
      (0 < commonSize → 0 < persistSize → ∀ l e, c.Allowed l → l.InVectors →
        ∃ a c' s', Observed.Plain c ⟨l, e, a⟩ c' ∧ Step s ⟨l, e, a⟩ s' ∧ Agrees s' c'.pool) := by
  obtain ⟨hinv, ptrs, s, hrun, hsees⟩ := exists_sees_of_run recycled h
  refine ⟨s, hrun, hsees.agrees hinv.pool, fun hcommon hpersist l e hl hstream => ?_⟩
  have hunits : ∀ b, 0 < (c.pool.mng b).unitSize := by
    intro b
    rw [unitSize_run splits_opt_find splits_opt_create (run_calls h) b]
    cases b
    · exact hcommon
    · exact hpersist
  obtain ⟨c', hc'⟩ := Option.isSome_iff_exists.mp
    (hinv.defined splits_opt_find splits_opt_create hunits hl)
  obtain ⟨ptrs', s', hs', hsees'⟩ := hsees.exec hinv ⟨hc', hl⟩ hstream e
  have hinv' := hinv.step splits_opt_find splits_opt_create ⟨hc', hl⟩
  exact ⟨c.returned .opt l, c', s', ⟨hc', hl, hstream, rfl⟩, hs', hsees'.agrees hinv'.pool⟩

/-- Bufs of both pools, one of which is split, joined with both its neighbours and taken again. -/
theorem opt_refines_bestFit_joined :
    ∃ (c : Client) (s : DynamicMemPoolBestFitOpt), Run Step (fresh false 1048576 1048576)
      [⟨.alloc 1000 false 3 ⟨1073741824, 4096, 1048576⟩, ⟨0, 0, 0, 0⟩, 4096⟩,
        ⟨.alloc 3000 false 3 ⟨0, 0, 0⟩, ⟨0, 0, 0, 0⟩, 5120⟩,
        ⟨.alloc 100 true 5 ⟨1073741824, 2097152, 4096⟩, ⟨0, 0, 0, 0⟩, 2097152⟩,
        ⟨.free 4096, ⟨0, 0, 0, 0⟩, 0⟩, ⟨.free 5120, ⟨0, 0, 0, 0⟩, 0⟩,
        ⟨.alloc 2000 false 3 ⟨0, 0, 0⟩, ⟨0, 0, 0, 0⟩, 4096⟩] s ∧ Agrees s c.pool := by
  have hexec : (Run.exec (fun (c : Client) (o : Observed) => c.exec .opt o.call)
      (fun c o => c.Allowed o.call ∧ o.call.InVectors ∧ c.returned .opt o.call = o.returned)
      (Client.start 1048576 1048576)
      [⟨.alloc 1000 false 3 ⟨1073741824, 4096, 1048576⟩, ⟨0, 0, 0, 0⟩, 4096⟩,
        ⟨.alloc 3000 false 3 ⟨0, 0, 0⟩, ⟨0, 0, 0, 0⟩, 5120⟩,
        ⟨.alloc 100 true 5 ⟨1073741824, 2097152, 4096⟩, ⟨0, 0, 0, 0⟩, 2097152⟩,
        ⟨.free 4096, ⟨0, 0, 0, 0⟩, 0⟩, ⟨.free 5120, ⟨0, 0, 0, 0⟩, 0⟩,
        ⟨.alloc 2000 false 3 ⟨0, 0, 0⟩, ⟨0, 0, 0, 0⟩, 4096⟩]).isSome = true := by
    decide +kernel
  obtain ⟨c, hc⟩ := Option.isSome_iff_exists.mp hexec
  obtain ⟨s, hrun, hagrees, -⟩ := opt_refines_bestFit false (Run.of_exec hc)
  exact ⟨c, s, hrun, hagrees⟩

end DynamicMemPoolBestFitOpt

end Opt

end Ccbase.DynamicMem
