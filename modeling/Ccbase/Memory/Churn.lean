import Ccbase.Memory.AllocatorEdit
import Mathlib.Logic.Relation

/-!
# What an allocator does to the free buffers

The abstract view of an allocator: buffers without links, the blocks it owns,
and the environment of its callbacks. Between handing out a buffer and taking
one back, an allocator touches only buffers that are not in use. `Free` merges
neighbours (`Merge`); `Malloc` cuts candidates and talks to the device until it
takes a buffer (`Churn`, `Take`); the eager free declares idle buffers eagerly
free, merges them, and unmaps them (`Sweeps`).

Each method of the allocator is shown to be such a sequence that keeps
`AllocInv`: `Free` in this module, the others in `Malloc.lean`. Results about
the pool are then proved about single steps, and nothing above these modules
looks at a link or at an ordered set again.
-/

namespace Ccbase.Memory

open Ccbase.Lib Chain Relation

variable {ε : Type}

/-- What of an allocator and its memory matters to its clients. -/
structure Core (ε : Type) where
  bufs : Heap BufData
  blocks : Heap (Nat × Nat)
  own : Nat → Prop
  env : ε

def Ctx.core (c : Ctx ε) : Core ε where
  bufs := dataOf c.bufs
  blocks := c.blocks.map MemBlock.span
  own B := B ∈ c.alloc.memBlocks
  env := c.env

/-- The part of the buffer `d` behind its first `n` bytes. -/
def BufData.rest (d : BufData) (n : Nat) : BufData :=
  { size := d.size - n, addr := d.addr + n, streamId := d.streamId,
    memBlock := d.memBlock, status := d.status }

/-- The buffer of a new block. -/
def BufData.ofBlock (blk : MemBlock) (B : Nat) (eager : Bool) : BufData :=
  { size := blk.size, addr := blk.addr, streamId := blk.streamId, memBlock := B,
    status := if eager then .eagerFree else .idle }

/-- A free buffer takes over a free neighbour. -/
inductive Merge (own : Nat → Prop) (D : Heap BufData) : Heap BufData → Prop where
  | mk {p q a : Nat} {d e : BufData} (hp : D.get p = some d) (hq : D.get q = some e)
      (hne : p ≠ q) (hB : own d.memBlock) (hBq : e.memBlock = d.memBlock)
      (hfree : d.status.isFree) (hst : e.status = d.status)
      (hquiet : e.isEventNotUsed = true)
      (hadj : (a = e.addr ∧ e.addr + e.size = d.addr) ∨
        (a = d.addr ∧ d.addr + d.size = e.addr)) :
      Merge own D ((D.modify p fun x => { x with addr := a, size := x.size + e.size }).delete q)

/-- One step of `Malloc` on the way to a buffer. -/
inductive Churn (cb : Callbacks ε) (eager : Bool) (m : Core ε) : Core ε → Prop where
  | split {p n : Nat} {d : BufData} (hp : m.bufs.get p = some d) (hB : m.own d.memBlock)
      (hfree : d.status.isFree) (hn : n ≤ d.size) :
      Churn cb eager m
        { m with bufs := (m.bufs.new (d.rest n)).modify p fun x => { x with size := n } }
  | mapFail {p n k : Nat} {d : BufData} {env : ε} (hp : m.bufs.get p = some d)
      (hB : m.own d.memBlock) (hst : d.status = .eagerFree) (hn : n ≤ d.size)
      (hcb : cb.memMapper n d.addr m.env = some (k, env)) (hk : k ≠ n) :
      Churn cb eager m { m with env }
  | expand {size : Nat} {blk : MemBlock} {env : ε}
      (hcb : cb.memBlockExpander size m.env = some (some blk, env)) :
      Churn cb eager m
        { bufs := m.bufs.new (.ofBlock blk m.blocks.next eager)
          blocks := m.blocks.new blk.span
          own := fun B => m.own B ∨ B = m.blocks.next
          env := env }
  | expandFail {size : Nat} {env : ε}
      (hcb : cb.memBlockExpander size m.env = some (none, env)) : Churn cb eager m { m with env }

/-- A free buffer is handed out, mapped first if it was eagerly free. -/
inductive Take (cb : Callbacks ε) (size p : Nat) (m : Core ε) : Core ε → Prop where
  | idle {d : BufData} (hp : m.bufs.get p = some d) (hB : m.own d.memBlock)
      (hst : d.status = .idle) (hsize : size ≤ d.size) :
      Take cb size p m { m with bufs := m.bufs.modify p fun x => { x with status := .used } }
  | eager {d : BufData} {env : ε} (hp : m.bufs.get p = some d) (hB : m.own d.memBlock)
      (hst : d.status = .eagerFree) (hsize : size ≤ d.size)
      (hcb : cb.memMapper d.size d.addr m.env = some (d.size, env)) :
      Take cb size p m
        { m with bufs := m.bufs.modify p fun x => { x with status := .used }, env }

/-- The eager free from `m` on; the number counts the bytes that have been
idle and are eagerly free now. -/
inductive Sweeps (cb : Callbacks ε) (m : Core ε) : Nat → Core ε → Prop where
  | refl : Sweeps cb m 0 m
  | convert {n p : Nat} {d : BufData} {m' : Core ε} (h : Sweeps cb m n m')
      (hp : m'.bufs.get p = some d) (hB : m'.own d.memBlock) (hst : d.status = .idle) :
      Sweeps cb m (n + d.size)
        { m' with bufs := m'.bufs.modify p fun x => { x with status := .eagerFree } }
  | merge {n : Nat} {m' : Core ε} {D : Heap BufData} (h : Sweeps cb m n m')
      (hD : Merge m'.own m'.bufs D) : Sweeps cb m n { m' with bufs := D }
  | unmap {n k p : Nat} {d : BufData} {m' : Core ε} {env : ε} (h : Sweeps cb m n m')
      (hp : m'.bufs.get p = some d) (hB : m'.own d.memBlock) (hst : d.status = .eagerFree)
      (hcb : cb.memEagerFreer d.addr d.size m'.env = some (k, env)) :
      Sweeps cb m n { m' with env }

theorem Sweeps.merges {cb : Callbacks ε} {m m' : Core ε} {n : Nat} {D : Heap BufData}
    (h : Sweeps cb m n m') (hD : ReflTransGen (Merge m'.own) m'.bufs D) :
    Sweeps cb m n { m' with bufs := D } := by
  induction hD with
  | refl => exact h
  | tail _ hstep ih => exact ih.merge hstep

theorem Sweeps.trans {cb : Callbacks ε} {m m' m'' : Core ε} {n n' : Nat}
    (h : Sweeps cb m n m') (h' : Sweeps cb m' n' m'') : Sweeps cb m (n + n') m'' := by
  induction h' with
  | refl => exact h
  | convert _ hp hB hst ih =>
      rw [← Nat.add_assoc]
      exact ih.convert hp hB hst
  | merge _ hD ih => exact ih.merge hD
  | unmap _ hp hB hst hcb ih => exact ih.unmap hp hB hst hcb

/-- What the rest of the pool can rely on when a method of an allocator ends. -/
structure Ext (c c' : Ctx ε) (lay lay' : Nat → List Nat) : Prop where
  own : ∀ B ∈ c.alloc.memBlocks, B ∈ c'.alloc.memBlocks
  fresh : ∀ B ∈ c'.alloc.memBlocks, B ∈ c.alloc.memBlocks ∨ c.blocks.next ≤ B
  outside : Outside c'.alloc.memBlocks c.bufs c'.bufs
  blocksOut : ∀ B, B ∉ c'.alloc.memBlocks → c'.blocks.get B = c.blocks.get B
  layOut : ∀ B, B ∉ c'.alloc.memBlocks → lay' B = lay B
  next : c.blocks.next ≤ c'.blocks.next
  eager : c'.alloc.enableEagerFree = c.alloc.enableEagerFree

namespace Ext

variable {c c' c'' : Ctx ε} {lay lay' lay'' : Nat → List Nat}

/-- Sets and environment are not the business of the rest of the pool. -/
theorem of_eq (hown : c'.alloc.memBlocks = c.alloc.memBlocks) (hbufs : c'.bufs = c.bufs)
    (hblocks : c'.blocks = c.blocks)
    (heager : c'.alloc.enableEagerFree = c.alloc.enableEagerFree) : Ext c c' lay lay where
  own := fun _ h => by rwa [hown]
  fresh := fun _ h => .inl (by rwa [← hown])
  outside := fun _ _ _ => by rw [hbufs]
  blocksOut := fun _ _ => by rw [hblocks]
  layOut := fun _ _ => rfl
  next := Nat.le_of_eq (by rw [hblocks])
  eager := heager

theorem trans (h : Ext c c' lay lay') (h' : Ext c' c'' lay' lay'') : Ext c c'' lay lay'' where
  own := fun B hB => h'.own B (h.own B hB)
  fresh := fun B hB => by
    rcases h'.fresh B hB with hB | hB
    · exact h.fresh B hB
    · exact .inr (Nat.le_trans h.next hB)
  outside := fun r b hb =>
    (h'.outside r b hb).trans (h.outside r b fun hB => hb (h'.own _ hB))
  blocksOut := fun B hB => by
    rw [h'.blocksOut B hB, h.blocksOut B fun h => hB (h'.own B h)]
  layOut := fun B hB => by
    rw [h'.layOut B hB, h.layOut B fun h => hB (h'.own B h)]
  next := Nat.le_trans h.next h'.next
  eager := h'.eager.trans h.eager

end Ext

namespace MemBufAllocator

/-! ## `Free` -/

/-- The detached buffer `p` has been merged with free neighbours. -/
structure Merged (c : Ctx ε) (lay : Nat → List Nat) (p : Nat) (b : MemBuf)
    (c' : Ctx ε) (lay' : Nat → List Nat) (b' : MemBuf) : Prop where
  inv : AllocInv c'.bufs c'.blocks c'.alloc lay' (some p)
  get : c'.bufs.get p = some b'
  memBlock : b'.memBlock = b.memBlock
  status : b'.status = b.status
  own : c'.alloc.memBlocks = c.alloc.memBlocks
  blocks : c'.blocks = c.blocks
  env : c'.env = c.env
  eager : c'.alloc.enableEagerFree = c.alloc.enableEagerFree
  outside : Outside c.alloc.memBlocks c.bufs c'.bufs
  layOut : ∀ B, B ∉ c.alloc.memBlocks → lay' B = lay B
  merges : ReflTransGen (Merge (· ∈ c.alloc.memBlocks)) (dataOf c.bufs) (dataOf c'.bufs)

variable {c c' : Ctx ε} {lay : Nat → List Nat} {p : Nat} {b : MemBuf}

theorem Merged.refl (h : AllocInv c.bufs c.blocks c.alloc lay (some p))
    (hp : c.bufs.get p = some b) : Merged c lay p b c lay b :=
  ⟨h, hp, rfl, rfl, rfl, rfl, rfl, rfl, fun _ _ _ => Iff.rfl, fun _ _ => rfl, .refl⟩

theorem Merged.trans {c'' : Ctx ε} {lay' lay'' : Nat → List Nat} {b' b'' : MemBuf}
    (h : Merged c lay p b c' lay' b') (h' : Merged c' lay' p b' c'' lay'' b'') :
    Merged c lay p b c'' lay'' b'' where
  inv := h'.inv
  get := h'.get
  memBlock := h'.memBlock.trans h.memBlock
  status := h'.status.trans h.status
  own := h'.own.trans h.own
  blocks := h'.blocks.trans h.blocks
  env := h'.env.trans h.env
  eager := h'.eager.trans h.eager
  outside := fun r y hy =>
    (h'.outside r y (by rw [h.own]; exact hy)).trans (h.outside r y hy)
  layOut := fun B hB => (h'.layOut B (by rw [h.own]; exact hB)).trans (h.layOut B hB)
  merges := h.merges.trans (by have := h'.merges; rwa [h.own] at this)

/-- One merge, given what memory looks like right before `q` is deleted. -/
theorem Merged.absorb {bufs' : Heap MemBuf} {y : MemBuf} {q a : Nat} (ps' : List Nat)
    (h : AllocInv c.bufs c.blocks c.alloc lay (some p)) (hp : c.bufs.get p = some b)
    (hq : c.bufs.get q = some y) (hpq : p ≠ q) (hB : b.memBlock ∈ c.alloc.memBlocks)
    (hBq : y.memBlock = b.memBlock) (hfree : b.status.isFree) (hst : y.status = b.status)
    (hdata : dataOf bufs' = (dataOf c.bufs).modify p
      fun d => { d with addr := a, size := d.size + y.size })
    (hadj : (a = y.addr ∧ y.addr + y.size = b.addr) ∨ (a = b.addr ∧ b.addr + b.size = y.addr))
    (hout : ∀ r, r ∉ lay b.memBlock → bufs'.get r = c.bufs.get r)
    (hps : ∀ r, r ∈ ps' ↔ r ∈ lay b.memBlock ∧ r ≠ q) (hnd : ps'.Nodup)
    (hseg : ∀ blk, c.blocks.get b.memBlock = some blk →
      Seg (bufs'.delete q) none blk.addr ps' none (blk.addr + blk.size)) :
    ∃ b', Merged c lay p b
        { c with alloc := c.alloc.erase bufs' b.status q, bufs := bufs'.delete q }
        (Function.update lay b.memBlock ps') b' ∧
      b'.data = { b.data with addr := a, size := b.size + y.size } := by
  have hquiet : ∀ r x, c.bufs.get r = some x → x.memBlock = b.memBlock →
      x.status = b.status → x.isEventNotUsed = true := fun r x hr hx hsx =>
    h.quiet r x.data (dataOf_get hr) (show x.memBlock ∈ _ by rw [hx]; exact hB)
      (show x.status.isFree by rw [hsx]; exact hfree)
  obtain ⟨hinv, houtside⟩ := h.absorb hp hq hpq hB hBq (by rw [hst]; exact hfree) hdata rfl rfl
    (hquiet p b hp rfl rfl) hout hps hnd hseg
  have hgetp : (dataOf (bufs'.delete q)).get p =
      some { b.data with addr := a, size := b.size + y.size } := by
    rw [dataOf_delete, Heap.get_delete_ne _ hpq, hdata, Heap.get_modify_self, dataOf_get hp]
    rfl
  obtain ⟨b', hb', hbd⟩ := dataOf_get_some hgetp
  rw [hst] at hinv
  refine ⟨b', ?_, hbd⟩
  exact
    { inv := hinv
      get := hb'
      memBlock := congrArg BufData.memBlock hbd
      status := congrArg BufData.status hbd
      own := erase_memBlocks ..
      blocks := rfl
      env := rfl
      eager := erase_enableEagerFree ..
      outside := houtside
      layOut := fun C hC => by
        rw [Function.update_of_ne]
        exact fun heq => hC (heq ▸ hB)
      merges := by
        have hD : dataOf (bufs'.delete q) = ((dataOf c.bufs).modify p
            fun d => { d with addr := a, size := d.size + y.data.size }).delete q := by
          rw [dataOf_delete, hdata]
          rfl
        show ReflTransGen _ _ (dataOf (bufs'.delete q))
        rw [hD]
        exact .single (.mk (dataOf_get hp) (dataOf_get hq) hpq hB hBq hfree hst
          (hquiet q y hq hBq hst) hadj) }

/-- The left neighbour is merged if it has the status of the buffer. -/
theorem mergePrev_cases (h : AllocInv c.bufs c.blocks c.alloc lay (some p))
    (hp : c.bufs.get p = some b) (hB : b.memBlock ∈ c.alloc.memBlocks)
    (hfree : b.status.isFree) :
    (mergePrev p b.status c = c ∧
      ∀ q y, b.prev = some q → c.bufs.get q = some y → y.status ≠ b.status) ∨
    ∃ L q R y b', lay b.memBlock = L ++ q :: p :: R ∧ c.bufs.get q = some y ∧
      y.status = b.status ∧ b'.data = { b.data with addr := y.addr, size := b.size + y.size } ∧
      (mergePrev p b.status c).bufs = (absorbPrev p y c.bufs).delete q ∧
      (mergePrev p b.status c).alloc = c.alloc.erase (absorbPrev p y c.bufs) b.status q ∧
      Merged c lay p b (mergePrev p b.status c)
        (Function.update lay b.memBlock (L ++ p :: R)) b' := by
  cases hbp : b.prev with
  | none =>
      simp only [mergePrev, hp, hbp]
      exact .inl ⟨trivial, nofun⟩
  | some q =>
      obtain ⟨L, R, y, hlay, hy, hyB, hadj, hyL⟩ := h.left_neighbour hp hB hbp
      by_cases hst : y.status = b.status
      · refine .inr ?_
        simp only [mergePrev, hp, hbp, hy, hst, if_true]
        -- the buffers around the two are others
        have hnd := h.nodup _ hB
        rw [hlay] at hnd
        have hndL := List.nodup_append.mp hnd
        have hpq : p ≠ q := fun heq =>
          (List.nodup_cons.mp hndL.2.1).1 (by simp [heq])
        have hpL : p ∉ L := fun hm => hndL.2.2 p hm p (by simp) rfl
        have hqL : q ∉ L := fun hm => hndL.2.2 q hm q (by simp) rfl
        have hqR : q ∉ R := fun hm => (List.nodup_cons.mp hndL.2.1).1 (by simp [hm])
        have hpR : p ∉ R := (List.nodup_cons.mp (List.nodup_cons.mp hndL.2.1).2).1
        -- only `p` and the left neighbour of `q` are written
        have hget : ∀ r, r ≠ p → r ∉ L → (absorbPrev p y c.bufs).get r = c.bufs.get r := by
          intro r hr hrL
          rw [absorbPrev_get_ne hr, hyL]
          exact Heap.get_modify?_ne _ _ fun heq => hrL (List.mem_of_mem_getLast? heq)
        suffices hm : ∃ b', Merged c lay p b _ _ b' ∧ b'.data = _ by
          obtain ⟨b', hm, hd⟩ := hm
          exact ⟨L, q, R, y, b', hlay, hy, hst, hd, rfl, rfl, hm⟩
        refine Merged.absorb (L ++ p :: R) h hp hy hpq hB hyB hfree hst
          (dataOf_absorbPrev ..) (.inl ⟨rfl, hadj⟩) ?_ ?_ ?_ ?_
        · intro r hr
          rw [hlay] at hr
          simp only [List.mem_append, List.mem_cons, not_or] at hr
          exact hget r hr.2.2.1 hr.1
        · intro r
          rw [hlay]
          simp only [List.mem_append, List.mem_cons]
          constructor
          · rintro (hr | rfl | hr)
            · exact ⟨.inl hr, fun heq => hqL (heq ▸ hr)⟩
            · exact ⟨.inr (.inr (.inl rfl)), hpq⟩
            · exact ⟨.inr (.inr (.inr hr)), fun heq => hqR (heq ▸ hr)⟩
          · rintro ⟨hr | hr | hr, hrq⟩
            · exact .inl hr
            · exact absurd hr hrq
            · exact .inr hr
        · exact hnd.sublist ((List.sublist_cons_self q (p :: R)).append_left L)
        · intro blk hblk
          obtain ⟨blk', hblk', hseg⟩ := h.chain _ hB
          rw [hblk] at hblk'
          cases hblk'
          rw [hlay] at hseg
          refine hseg.absorbPrev hnd hy hp (w := { b with
            prev := y.prev, addr := y.addr, size := b.size + y.size }) ?_ rfl rfl rfl
            (Nat.add_comm _ _) ?_ ?_
          · rw [Heap.get_delete_ne _ hpq, absorbPrev_get_self hp]
            rw [hyL]
            exact fun heq => hpL (List.mem_of_mem_getLast? heq)
          · intro r hr
            rw [Heap.get_delete_ne _ (fun heq : r = q => hqL (heq ▸ hr)),
              absorbPrev_get_ne (fun heq : r = p => hpL (heq ▸ hr)), hyL]
          · intro r hr
            rw [Heap.get_delete_ne _ (fun heq : r = q => hqR (heq ▸ hr))]
            refine hget r (fun heq => hpR (heq ▸ hr)) fun hrL => ?_
            exact hndL.2.2 r hrL r (by simp [hr]) rfl
      · simp only [mergePrev, hp, hbp, hy, hst, if_false]
        -- the neighbour has another status, and nothing happens
        refine .inl ⟨trivial, fun q' y' hq' hy' => ?_⟩
        cases hq'
        rw [hy] at hy'
        cases hy'
        exact hst

theorem mergePrev_spec (h : AllocInv c.bufs c.blocks c.alloc lay (some p))
    (hp : c.bufs.get p = some b) (hB : b.memBlock ∈ c.alloc.memBlocks)
    (hfree : b.status.isFree) :
    ∃ lay' b', Merged c lay p b (mergePrev p b.status c) lay' b' := by
  rcases mergePrev_cases h hp hB hfree with ⟨heq, -⟩ | ⟨L, q, R, y, b', -, -, -, -, -, -, hm⟩
  · rw [heq]
    exact ⟨lay, b, Merged.refl h hp⟩
  · exact ⟨_, b', hm⟩

/-- The right neighbour is merged if it has the status of the buffer. -/
theorem mergeNext_cases (h : AllocInv c.bufs c.blocks c.alloc lay (some p))
    (hp : c.bufs.get p = some b) (hB : b.memBlock ∈ c.alloc.memBlocks)
    (hfree : b.status.isFree) :
    (mergeNext p b.status c = c ∧
      ∀ q y, b.next = some q → c.bufs.get q = some y → y.status ≠ b.status) ∨
    ∃ L q R y b', lay b.memBlock = L ++ p :: q :: R ∧ c.bufs.get q = some y ∧
      y.status = b.status ∧ b'.data = { b.data with size := b.size + y.size } ∧
      (mergeNext p b.status c).bufs = (absorbNext p y c.bufs).delete q ∧
      (mergeNext p b.status c).alloc = c.alloc.erase (absorbNext p y c.bufs) b.status q ∧
      Merged c lay p b (mergeNext p b.status c)
        (Function.update lay b.memBlock (L ++ p :: R)) b' := by
  cases hbn : b.next with
  | none =>
      simp only [mergeNext, hp, hbn]
      exact .inl ⟨trivial, nofun⟩
  | some q =>
      obtain ⟨L, R, y, hlay, hy, hyB, hadj, hyR⟩ := h.right_neighbour hp hB hbn
      by_cases hst : y.status = b.status
      · refine .inr ?_
        simp only [mergeNext, hp, hbn, hy, hst, if_true]
        have hnd := h.nodup _ hB
        rw [hlay] at hnd
        have hndL := List.nodup_append.mp hnd
        have hpqR := List.nodup_cons.mp hndL.2.1
        have hpq : p ≠ q := fun heq => hpqR.1 (by simp [heq])
        have hpR : p ∉ R := fun hm => hpqR.1 (by simp [hm])
        have hqR : q ∉ R := (List.nodup_cons.mp hpqR.2).1
        have hpL : p ∉ L := fun hm => hndL.2.2 p hm p (by simp) rfl
        have hqL : q ∉ L := fun hm => hndL.2.2 q hm q (by simp) rfl
        -- only `p` and the right neighbour of `q` are written
        have hget : ∀ r, r ≠ p → r ∉ R → (absorbNext p y c.bufs).get r = c.bufs.get r := by
          intro r hr hrR
          rw [absorbNext_get_ne hr, hyR]
          exact Heap.get_modify?_ne _ _ fun heq => hrR (List.mem_of_head? heq)
        suffices hm : ∃ b', Merged c lay p b _ _ b' ∧ b'.data = _ by
          obtain ⟨b', hm, hd⟩ := hm
          exact ⟨L, q, R, y, b', hlay, hy, hst, hd, rfl, rfl, hm⟩
        refine Merged.absorb (L ++ p :: R) (a := b.addr) h hp hy hpq hB hyB hfree hst
          ?_ (.inr ⟨rfl, hadj⟩) ?_ ?_ ?_ ?_
        · rw [dataOf_absorbNext]
          refine Heap.ext (fun r => ?_) rfl
          by_cases hr : r = p
          · rw [hr, Heap.get_modify_self, Heap.get_modify_self, dataOf_get hp]
            rfl
          · rw [Heap.get_modify_ne _ _ hr, Heap.get_modify_ne _ _ hr]
        · intro r hr
          rw [hlay] at hr
          simp only [List.mem_append, List.mem_cons, not_or] at hr
          exact hget r hr.2.1 hr.2.2.2
        · intro r
          rw [hlay]
          simp only [List.mem_append, List.mem_cons]
          constructor
          · rintro (hr | rfl | hr)
            · exact ⟨.inl hr, fun heq => hqL (heq ▸ hr)⟩
            · exact ⟨.inr (.inl rfl), hpq⟩
            · exact ⟨.inr (.inr (.inr hr)), fun heq => hqR (heq ▸ hr)⟩
          · rintro ⟨hr | hr | hr | hr, hrq⟩
            · exact .inl hr
            · exact .inr (.inl hr)
            · exact absurd hr hrq
            · exact .inr (.inr hr)
        · exact hnd.sublist (((List.sublist_cons_self q R).cons_cons p).append_left L)
        · intro blk hblk
          obtain ⟨blk', hblk', hseg⟩ := h.chain _ hB
          rw [hblk] at hblk'
          cases hblk'
          rw [hlay] at hseg
          refine hseg.absorbNext hnd hp hy (w := { b with
            next := y.next, size := b.size + y.size }) ?_ rfl rfl rfl rfl ?_ ?_
          · rw [Heap.get_delete_ne _ hpq, absorbNext_get_self hp]
            rw [hyR]
            exact fun heq => hpR (List.mem_of_head? heq)
          · intro r hr
            rw [Heap.get_delete_ne _ (fun heq : r = q => hqL (heq ▸ hr))]
            refine hget r (fun heq => hpL (heq ▸ hr)) fun hrR => ?_
            exact hndL.2.2 r hr r (by simp [hrR]) rfl
          · intro r hr
            rw [Heap.get_delete_ne _ (fun heq : r = q => hqR (heq ▸ hr)),
              absorbNext_get_ne (fun heq : r = p => hpR (heq ▸ hr)), hyR]
      · simp only [mergeNext, hp, hbn, hy, hst, if_false]
        -- the neighbour has another status, and nothing happens
        refine .inl ⟨trivial, fun q' y' hq' hy' => ?_⟩
        cases hq'
        rw [hy] at hy'
        cases hy'
        exact hst

theorem mergeNext_spec (h : AllocInv c.bufs c.blocks c.alloc lay (some p))
    (hp : c.bufs.get p = some b) (hB : b.memBlock ∈ c.alloc.memBlocks)
    (hfree : b.status.isFree) :
    ∃ lay' b', Merged c lay p b (mergeNext p b.status c) lay' b' := by
  rcases mergeNext_cases h hp hB hfree with ⟨heq, -⟩ | ⟨L, q, R, y, b', -, -, -, -, -, -, hm⟩
  · rw [heq]
    exact ⟨lay, b, Merged.refl h hp⟩
  · exact ⟨_, b', hm⟩

/-- `Free` has ended: the buffer is merged and back in a set, and memory went
from `D` to what it is now by merges only. -/
structure Coalesced (c : Ctx ε) (lay : Nat → List Nat) (D : Heap BufData)
    (c' : Ctx ε) (lay' : Nat → List Nat) : Prop where
  inv : AllocInv c'.bufs c'.blocks c'.alloc lay' none
  own : c'.alloc.memBlocks = c.alloc.memBlocks
  blocks : c'.blocks = c.blocks
  env : c'.env = c.env
  eager : c'.alloc.enableEagerFree = c.alloc.enableEagerFree
  outside : Outside c.alloc.memBlocks c.bufs c'.bufs
  layOut : ∀ B, B ∉ c.alloc.memBlocks → lay' B = lay B
  merges : ReflTransGen (Merge (· ∈ c.alloc.memBlocks)) D (dataOf c'.bufs)

theorem Coalesced.ext {D : Heap BufData} {lay' : Nat → List Nat}
    (h : Coalesced c lay D c' lay') : Ext c c' lay lay' where
  own := fun B hB => by rw [h.own]; exact hB
  fresh := fun B hB => .inl (by rw [← h.own]; exact hB)
  outside := by rw [h.own]; exact h.outside
  blocksOut := fun B _ => by rw [h.blocks]
  layOut := fun B hB => h.layOut B (by rw [← h.own]; exact hB)
  next := Nat.le_of_eq (by rw [h.blocks])
  eager := h.eager

@[simp] theorem emplace_memBlocks (al : MemBufAllocator) (bufs : Heap MemBuf)
    (st : MemBufStatus) (q : Nat) : (al.emplace bufs st q).memBlocks = al.memBlocks := by
  cases st <;> rfl

@[simp] theorem emplace_enableEagerFree (al : MemBufAllocator) (bufs : Heap MemBuf)
    (st : MemBufStatus) (q : Nat) :
    (al.emplace bufs st q).enableEagerFree = al.enableEagerFree := by
  cases st <;> rfl

/-- The buffer with its new status, before it is merged. -/
def tagged (p : Nat) (target : MemBufStatus) (c : Ctx ε) : Ctx ε :=
  { c with bufs := c.bufs.modify p fun b => { b with status := target } }

theorem tagged_get (target : MemBufStatus) (hp : c.bufs.get p = some b) :
    (tagged p target c).bufs.get p = some { b with status := target } := by
  rw [tagged, Heap.get_modify_self, hp]
  rfl

theorem dataOf_tagged (p : Nat) (target : MemBufStatus) (c : Ctx ε) :
    dataOf (tagged p target c).bufs =
      (dataOf c.bufs).modify p fun d => { d with status := target } :=
  dataOf_modify (fun _ => rfl) _ _

theorem tagged_inv (target : MemBufStatus)
    (h : AllocInv c.bufs c.blocks c.alloc lay (some p)) (hp : c.bufs.get p = some b)
    (hB : b.memBlock ∈ c.alloc.memBlocks) (hquiet : b.isEventNotUsed = true) :
    AllocInv (tagged p target c).bufs c.blocks c.alloc lay (some p) :=
  h.retag (f := fun b => { b with status := target })
    (g := fun d => { d with status := target }) hp (fun _ => rfl) rfl rfl hB (fun _ => hquiet)

theorem coalesce_eq (p : Nat) (target : MemBufStatus) (c : Ctx ε) :
    coalesce p target c =
      { mergeNext p target (mergePrev p target (tagged p target c)) with
        alloc := (mergeNext p target (mergePrev p target (tagged p target c))).alloc.emplace
          (mergeNext p target (mergePrev p target (tagged p target c))).bufs target p } := rfl

/-- The merges of `Free` and the return into a set. -/
theorem Merged.coalesced {target : MemBufStatus} {lay' : Nat → List Nat} {b' : MemBuf}
    (hp : c.bufs.get p = some b) (hB : b.memBlock ∈ c.alloc.memBlocks) (htarget : target.isFree)
    (m : Merged (tagged p target c) lay p { b with status := target }
      (mergeNext p target (mergePrev p target (tagged p target c))) lay' b') :
    Coalesced c lay ((dataOf c.bufs).modify p fun d => { d with status := target })
      (coalesce p target c) lay' := by
  have hst : b'.status = target := m.status
  have hB' : b'.memBlock ∈
      (mergeNext p target (mergePrev p target (tagged p target c))).alloc.memBlocks := by
    rw [m.own, m.memBlock]
    exact hB
  have hfin := m.inv.emplace m.get hB' (by rw [hst]; exact htarget)
  rw [hst] at hfin
  have hout := Outside.modify (f := fun b => { b with status := target }) hp hB hB
  rw [coalesce_eq]
  exact
    { inv := hfin
      own := by rw [emplace_memBlocks, m.own]; rfl
      blocks := m.blocks
      env := m.env
      eager := by rw [emplace_enableEagerFree, m.eager]; rfl
      outside := fun r y hy => (m.outside r y hy).trans (hout r y hy)
      layOut := m.layOut
      merges := by
        rw [← dataOf_tagged]
        exact m.merges }

theorem coalesce_spec (target : MemBufStatus)
    (h : AllocInv c.bufs c.blocks c.alloc lay (some p)) (hp : c.bufs.get p = some b)
    (hB : b.memBlock ∈ c.alloc.memBlocks) (hquiet : b.isEventNotUsed = true)
    (htarget : target.isFree) :
    ∃ lay', Coalesced c lay
      ((dataOf c.bufs).modify p fun d => { d with status := target })
      (coalesce p target c) lay' := by
  have h₁ := tagged_inv target h hp hB hquiet
  obtain ⟨lay₂, b₂, m₂⟩ := mergePrev_spec h₁ (tagged_get target hp) hB htarget
  have hB₂ : b₂.memBlock ∈ (mergePrev p target (tagged p target c)).alloc.memBlocks := by
    rw [m₂.own, m₂.memBlock]
    exact hB
  have hst₂ : b₂.status = target := m₂.status
  obtain ⟨lay₃, b₃, m₃⟩ := mergeNext_spec m₂.inv m₂.get hB₂ (by rw [hst₂]; exact htarget)
  rw [hst₂] at m₃
  exact ⟨lay₃, (m₂.trans m₃).coalesced hp hB htarget⟩

end MemBufAllocator

end Ccbase.Memory
