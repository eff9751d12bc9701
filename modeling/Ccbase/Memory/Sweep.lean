import Ccbase.Memory.TidyMalloc
import Ccbase.Memory.Sizes

/-!
# `FreeIdleMemsByEagerFree`

The call walks over the idle set while `Free` deletes neighbours of the buffer it visits
and changes the key of that buffer. The walk is written a second time with every pointer
checked before it is followed; the checked walk answers `none` where a pointer leads to no
buffer. It comes to the same result, so nothing that has been deleted is read.

What the walk makes of a block is read off its cells: every run of free memory becomes one
eagerly free cell.
-/

namespace Ccbase.Memory

open Ccbase.Lib Chain

variable {ε : Type} {c c' : Ctx ε} {lay : Nat → List Nat} {p : Nat} {b : MemBuf}

/-- The sizes of the idle buffers. -/
def idleTotal (bufs : Heap MemBuf) : Nat :=
  (dataOf bufs).sum (BufData.sizeIn fun st => st = .idle)

namespace MemBufAllocator

/-! ## The call with its reads checked -/

/-- Every pointer of the list leads to a buffer. -/
def readAll (bufs : Heap MemBuf) (ps : List Nat) : Option Unit :=
  if ps.all fun p => (bufs.get p).isSome then some () else none

/-- The set that holds the buffers of a status. -/
def setOf (al : MemBufAllocator) : MemBufStatus → List Nat
  | .idle => al.freeMemBufs
  | .eagerFree => al.eagerFreeMemBufs
  | _ => []

/-- The comparator of the set may read any member of it. -/
def mergePrevChecked (p : Nat) (target : MemBufStatus) (c : Ctx ε) : Option (Ctx ε) := do
  let b ← c.bufs.get p
  match b.prev with
  | none => some c
  | some q =>
      let prevBuf ← c.bufs.get q
      if prevBuf.status = target then
        readAll c.bufs (prevBuf.prev.toList ++ c.alloc.setOf target)
        let bufs := absorbPrev p prevBuf c.bufs
        some { c with alloc := c.alloc.erase bufs target q, bufs := bufs.delete q }
      else some c

def mergeNextChecked (p : Nat) (target : MemBufStatus) (c : Ctx ε) : Option (Ctx ε) := do
  let b ← c.bufs.get p
  match b.next with
  | none => some c
  | some q =>
      let nextBuf ← c.bufs.get q
      if nextBuf.status = target then
        readAll c.bufs (nextBuf.next.toList ++ c.alloc.setOf target)
        let bufs := absorbNext p nextBuf c.bufs
        some { c with alloc := c.alloc.erase bufs target q, bufs := bufs.delete q }
      else some c

def freeChecked (p : Nat) (target : MemBufStatus) (c : Ctx ε) : Option (Bool × Ctx ε) := do
  let b ← c.bufs.get p
  if !b.isEventNotUsed then
    some (false, { c with bufs := c.bufs.modify p fun b => { b with status := .usedByEvent } })
  else
    let c ← mergePrevChecked p target (tagged p target c)
    let c ← mergeNextChecked p target c
    readAll c.bufs (p :: c.alloc.setOf target)
    some (true, { c with alloc := c.alloc.emplace c.bufs target p })

def eagerFreeAllChecked : List Nat → Nat → Ctx ε → Option (Nat × Ctx ε)
  | [], total, c => some (total, c)
  | p :: ps, total, c => do
      let b ← c.bufs.get p
      let (_, c) ← freeChecked p .eagerFree c
      eagerFreeAllChecked ps (addSize total b.size) c

/-- A callback that does not come back gives `some none`. -/
def memEagerFreeAllChecked (cb : Callbacks ε) :
    List Nat → Nat → Ctx ε → Option (Option (Nat × Ctx ε))
  | [], total, c => some (some (total, c))
  | p :: ps, total, c => do
      let b ← c.bufs.get p
      match cb.memEagerFreer b.addr b.size c.env with
      | none => some none
      | some (n, env) => memEagerFreeAllChecked cb ps (addSize total n) { c with env }

def freeIdleMemsByEagerFreeChecked (cb : Callbacks ε) (c : Ctx ε) :
    Option (Option ((Nat × Nat) × Ctx ε)) := do
  let (eagerFreeSize, c) ← eagerFreeAllChecked c.alloc.freeMemBufs 0 c
  let c := { c with alloc := { c.alloc with freeMemBufs := [] } }
  let res ← memEagerFreeAllChecked cb c.alloc.eagerFreeMemBufs 0 c
  some (res.map fun (realFreeSize, c) => ((eagerFreeSize, realFreeSize), c))

/-! ## No dangling pointer is read -/

theorem readAll_eq {bufs : Heap MemBuf} {ps : List Nat}
    (h : ∀ q ∈ ps, ∃ y, bufs.get q = some y) : readAll bufs ps = some () := by
  refine if_pos (List.all_eq_true.mpr fun q hq => ?_)
  obtain ⟨y, hy⟩ := h q hq
  rw [hy]
  rfl

/-- The eager set of an allocator; nothing is said about its idle set. -/
theorem eager_readable {al : MemBufAllocator} {bufs : Heap MemBuf} {blocks : Heap MemBlock}
    {x : Option Nat} (h : AllocInv bufs blocks al lay x) :
    ∀ q ∈ al.eagerFreeMemBufs, ∃ y, bufs.get q = some y := by
  intro q hq
  obtain ⟨-, d, hd, -⟩ := h.eager.sound q hq
  obtain ⟨y, hy, -⟩ := dataOf_get_some hd
  exact ⟨y, hy⟩

theorem mergePrevChecked_eq (ps : List Nat)
    (h : AllocInv c.bufs c.blocks { c.alloc with freeMemBufs := ps } lay (some p))
    (hp : c.bufs.get p = some b) (hB : b.memBlock ∈ c.alloc.memBlocks) :
    mergePrevChecked p .eagerFree c = some (mergePrev p .eagerFree c) := by
  unfold mergePrevChecked mergePrev
  rw [hp]
  simp only [Option.bind_eq_bind, Option.bind_some]
  cases hprev : b.prev with
  | none => rfl
  | some q =>
      obtain ⟨L, R, y, hlay, hy, -, -, hyL⟩ := h.left_neighbour hp hB hprev
      simp only [hy, Option.bind_some]
      split
      · rw [readAll_eq fun r hr => ?_]
        · rfl
        rcases List.mem_append.mp hr with hr | hr
        · rw [Option.mem_toList, hyL] at hr
          obtain ⟨z, hz, -⟩ := h.memBlock_of_mem hB (p := r)
            (by rw [hlay]; exact List.mem_append_left _ (List.mem_of_mem_getLast? hr))
          exact ⟨z, hz⟩
        · exact eager_readable h r hr
      · rfl

theorem mergeNextChecked_eq (ps : List Nat)
    (h : AllocInv c.bufs c.blocks { c.alloc with freeMemBufs := ps } lay (some p))
    (hp : c.bufs.get p = some b) (hB : b.memBlock ∈ c.alloc.memBlocks) :
    mergeNextChecked p .eagerFree c = some (mergeNext p .eagerFree c) := by
  unfold mergeNextChecked mergeNext
  rw [hp]
  simp only [Option.bind_eq_bind, Option.bind_some]
  cases hnext : b.next with
  | none => rfl
  | some q =>
      obtain ⟨L, R, y, hlay, hy, -, -, hyR⟩ := h.right_neighbour hp hB hnext
      simp only [hy, Option.bind_some]
      split
      · rw [readAll_eq fun r hr => ?_]
        · rfl
        rcases List.mem_append.mp hr with hr | hr
        · rw [Option.mem_toList, hyR] at hr
          obtain ⟨z, hz, -⟩ := h.memBlock_of_mem hB (p := r)
            (by rw [hlay]; simp [List.mem_of_head? hr])
          exact ⟨z, hz⟩
        · exact eager_readable h r hr
      · rfl

theorem freeChecked_eq (ps : List Nat)
    (h : AllocInv c.bufs c.blocks { c.alloc with freeMemBufs := ps } lay (some p))
    (hp : c.bufs.get p = some b) (hB : b.memBlock ∈ c.alloc.memBlocks)
    (hquiet : b.isEventNotUsed = true) :
    freeChecked p .eagerFree c = some (true, coalesce p .eagerFree c) := by
  have h₁ := tagged_inv (c := withFree ps c) .eagerFree h hp hB hquiet
  have hget₁ := tagged_get (c := withFree ps c) .eagerFree hp
  obtain ⟨lay₂, b₂, hm₂⟩ := mergePrev_spec (c := tagged p .eagerFree (withFree ps c)) h₁ hget₁ hB
    (.inr rfl)
  have hB₂ : b₂.memBlock ∈
      (mergePrev p .eagerFree (tagged p .eagerFree (withFree ps c))).alloc.memBlocks := by
    rw [hm₂.own, hm₂.memBlock]
    exact hB
  have hst₂ : b₂.status = .eagerFree := hm₂.status
  obtain ⟨lay₃, b₃, hm₃⟩ := mergeNext_spec hm₂.inv hm₂.get hB₂ (by rw [hst₂]; exact .inr rfl)
  rw [hst₂] at hm₃
  have hget₂ := hm₂.get
  have hinv₂ := hm₂.inv
  have hget₃ := hm₃.get
  have hinv₃ := hm₃.inv
  dsimp only at hget₂ hinv₂ hget₃ hinv₃ hB₂
  rw [tagged_withFree, mergePrev_withFree] at hget₂ hinv₂ hB₂
  rw [tagged_withFree, mergePrev_withFree, mergeNext_withFree] at hget₃ hinv₃
  unfold freeChecked
  rw [hp]
  simp only [Option.bind_eq_bind, Option.bind_some, hquiet, Bool.not_true, Bool.false_eq_true,
    if_false]
  rw [mergePrevChecked_eq (c := tagged p .eagerFree c) ps h₁ (tagged_get .eagerFree hp) hB,
    Option.bind_some,
    mergeNextChecked_eq (c := mergePrev p .eagerFree (tagged p .eagerFree c)) ps hinv₂ hget₂ hB₂,
    Option.bind_some, readAll_eq fun r hr => ?_]
  · rfl
  · rcases List.mem_cons.mp hr with rfl | hr
    · exact ⟨b₃, hget₃⟩
    · exact eager_readable hinv₃ r hr

/-! ## The walk -/

/-- The walk over the idle buffers has come to an end. -/
structure Walked (c : Ctx ε) (lay : Nat → List Nat) (total : Nat) (res : Nat × Ctx ε)
    (lay' : Nat → List Nat) : Prop where
  tidy : Tidy (withFree [] res.2) lay' none
  ext : Ext c res.2 lay lay'
  own : res.2.alloc.memBlocks = c.alloc.memBlocks
  blocks : res.2.blocks = c.blocks
  swept : ∀ B ∈ c.alloc.memBlocks,
    sweepCells (cells (dataOf res.2.bufs) (lay' B)) = sweepCells (cells (dataOf c.bufs) (lay B))
  total : ∃ n, res.1 = (total + n) % sizeBound ∧ n + idleTotal res.2.bufs = idleTotal c.bufs

theorem eagerFreeAll_walked (ps : List Nat) (total : Nat) (h : Tidy (withFree ps c) lay none)
    (htotal : total < sizeBound) :
    eagerFreeAllChecked ps total c = some (eagerFreeAll ps total c) ∧
      ∃ lay', Walked c lay total (eagerFreeAll ps total c) lay' := by
  induction ps generalizing c lay total with
  | nil =>
      refine ⟨rfl, lay, h, Ext.of_eq rfl rfl rfl rfl, rfl, rfl, fun _ _ => rfl, 0, ?_, ?_⟩
      · exact (Nat.mod_eq_of_lt htotal).symm
      · exact Nat.zero_add _
  | cons p ps ih =>
      obtain ⟨-, d, hd, hB, hst⟩ := h.inv.free.sound p (by simp [withFree])
      obtain ⟨b, hb, rfl⟩ := dataOf_get_some hd
      have hst : b.status = .idle := hst
      have hb : c.bufs.get p = some b := hb
      have hB : b.memBlock ∈ c.alloc.memBlocks := hB
      have hquiet : b.isEventNotUsed = true := h.inv.quiet p _ hd hB (.inl hst)
      have hdet : Tidy (withFree ps c) lay (some p) := by
        have := h.eraseFree hb hst
        simp only [withFree, List.erase_cons_head] at this
        exact this
      obtain ⟨lay₁, hco, htidy, hswept⟩ := coalesce_tidy (c := withFree ps c) .eagerFree hdet hb hB
        hquiet (.inr rfl)
      rw [coalesce_withFree] at hco htidy hswept
      have hfree : (free p .eagerFree c).2 = coalesce p .eagerFree c := by
        unfold free
        simp only [hb, hquiet, Bool.not_true, Bool.false_eq_true, if_false]
      obtain ⟨hchecked, lay', hw⟩ := ih (c := coalesce p .eagerFree c)
        (addSize total b.size) htidy (addSize_lt _ _)
      have hall : eagerFreeAll (p :: ps) total c =
          eagerFreeAll ps (addSize total b.size) (coalesce p .eagerFree c) := by
        simp only [eagerFreeAll, hb, Option.map_some, Option.getD_some, hfree]
      rw [hall]
      have hown : (coalesce p .eagerFree c).alloc.memBlocks = c.alloc.memBlocks := hco.own
      have hext : Ext c (coalesce p .eagerFree c) lay lay₁ := by
        have he := hco.ext
        exact ⟨he.own, he.fresh, he.outside, he.blocksOut, he.layOut, he.next, he.eager⟩
      refine ⟨?_, lay', hw.tidy, hext.trans hw.ext, hw.own.trans hown, hw.blocks.trans hco.blocks,
        fun B hB' => ?_, ?_⟩
      · unfold eagerFreeAllChecked
        rw [hb]
        simp only [Option.bind_eq_bind, Option.bind_some]
        rw [freeChecked_eq (c := c) ps hdet.inv hb hB hquiet]
        exact hchecked
      · exact (hw.swept B (by rw [hown]; exact hB')).trans (hswept (.inl hst) B hB')
      · obtain ⟨n, htot, hsum⟩ := hw.total
        refine ⟨b.size + n, ?_, ?_⟩
        · rw [htot, addSize, Nat.mod_add_mod, Nat.add_assoc]
        · have hmerge : idleTotal (coalesce p .eagerFree c).bufs =
              ((dataOf c.bufs).modify p fun d => { d with status := .eagerFree }).sum
                (BufData.sizeIn fun st => st = .idle) := sum_sizeIn_merges hco.merges
          have htag := sum_sizeIn_status (S := fun st => st = .idle) (dataOf_get hb) .eagerFree
          have hidle : b.data.sizeIn (fun st => st = .idle) = b.size := by
            unfold BufData.sizeIn
            exact if_pos (decide_eq_true hst)
          rw [hidle, if_neg (by decide), Nat.add_zero] at htag
          unfold idleTotal at hsum hmerge ⊢
          omega

/-- The device may not come back, but it is told about existing buffers only. -/
theorem memEagerFreeAllChecked_eq (cb : Callbacks ε) {ps : List Nat} (total : Nat)
    (h : ∀ q ∈ ps, ∃ y, c.bufs.get q = some y) :
    memEagerFreeAllChecked cb ps total c = some (memEagerFreeAll cb ps total c) := by
  induction ps generalizing c total with
  | nil => rfl
  | cons p ps ih =>
      obtain ⟨y, hy⟩ := h p (by simp)
      simp only [memEagerFreeAllChecked, memEagerFreeAll, hy, Option.bind_eq_bind,
        Option.bind_some]
      cases cb.memEagerFreer y.addr y.size c.env with
      | none => rfl
      | some res => exact ih (c := { c with env := res.2 }) _ fun q hq => h q (by simp [hq])

/-- Every read of the call finds its buffer. -/
theorem freeIdleMemsByEagerFreeChecked_eq (cb : Callbacks ε) (h : Tidy c lay none) :
    freeIdleMemsByEagerFreeChecked cb c = some (freeIdleMemsByEagerFree cb c) := by
  obtain ⟨hwalk, lay', hw⟩ := eagerFreeAll_walked c.alloc.freeMemBufs 0 h (by decide)
  unfold freeIdleMemsByEagerFreeChecked freeIdleMemsByEagerFree
  rw [hwalk]
  simp only [Option.bind_eq_bind, Option.bind_some]
  generalize eagerFreeAll c.alloc.freeMemBufs 0 c = walk at hw
  obtain ⟨n, c₁⟩ := walk
  have hdev := memEagerFreeAllChecked_eq (c := withFree [] c₁) cb 0
    (eager_readable hw.tidy.inv)
  show (memEagerFreeAllChecked cb (withFree [] c₁).alloc.eagerFreeMemBufs 0
    (withFree [] c₁)).bind _ = some ((memEagerFreeAll cb (withFree [] c₁).alloc.eagerFreeMemBufs 0
      (withFree [] c₁)).bind _)
  rw [hdev, Option.bind_some]
  cases memEagerFreeAll cb (withFree [] c₁).alloc.eagerFreeMemBufs 0 (withFree [] c₁) <;> rfl

end MemBufAllocator

/-! ## What is left of the runs -/

/-- Neighbouring cells belong to neighbouring buffers. -/
theorem adj_of_cells {D : Heap BufData} {ps : List Nat} (h : ∀ p ∈ ps, ∃ d, D.get p = some d)
    {L R : List Cell} {x y : Cell} (hcells : cells D ps = L ++ x :: y :: R) :
    ∃ q r d e, Adj ps q r ∧ D.get q = some d ∧ D.get r = some e ∧ Cell.of q d = x ∧
      Cell.of r e = y := by
  induction ps generalizing L with
  | nil =>
      rw [show cells D [] = [] from rfl] at hcells
      simp at hcells
  | cons p ps ih =>
      obtain ⟨d, hd⟩ := h p (by simp)
      rw [cells_cons hd] at hcells
      cases L with
      | cons z L =>
          obtain ⟨q, r, d', e, hadj, hq, hr, hx, hy⟩ :=
            ih (fun r hr => h r (by simp [hr])) (List.cons.inj hcells).2
          exact ⟨q, r, d', e, adj_cons.mpr (.inr hadj), hq, hr, hx, hy⟩
      | nil =>
          obtain ⟨hx, hrest⟩ := List.cons.inj hcells
          cases ps with
          | nil =>
              rw [show cells D [] = [] from rfl] at hrest
              cases hrest
          | cons r ps =>
              obtain ⟨e, he⟩ := h r (by simp)
              rw [cells_cons he] at hrest
              exact ⟨p, r, d, e, adj_cons.mpr (.inl ⟨rfl, rfl⟩), hd, he, hx,
                (List.cons.inj hrest).1⟩

theorem mem_cells {D : Heap BufData} {ps : List Nat} {x : Cell} :
    x ∈ cells D ps ↔ ∃ p ∈ ps, ∃ d, D.get p = some d ∧ Cell.of p d = x := by
  unfold cells
  rw [List.mem_filterMap]
  constructor
  · rintro ⟨p, hp, hx⟩
    obtain ⟨d, hd, hx⟩ := Option.map_eq_some_iff.mp hx
    exact ⟨p, hp, d, hd, hx⟩
  · rintro ⟨p, hp, d, hd, hx⟩
    exact ⟨p, hp, by rw [hd, Option.map_some, hx]⟩

theorem Cell.of_eq_free {p : Nat} {d : BufData} {st : MemBufStatus} {a n : Nat}
    (h : Cell.of p d = .free st a n) : d.status.isFree ∧ d.status = st := by
  by_cases hfree : d.status.isFree
  · rw [Cell.of_free hfree] at h
    cases h
    exact ⟨hfree, rfl⟩
  · rw [Cell.of_held hfree] at h
    cases h

/-- Without idle buffers the cells of a block are what a sweep makes of them. -/
theorem Tidy.swept (h : Tidy c lay none)
    (hidle : ∀ p d, (dataOf c.bufs).get p = some d → d.memBlock ∈ c.alloc.memBlocks →
      d.status ≠ .idle) {B : Nat} (hB : B ∈ c.alloc.memBlocks) :
    sweepCells (cells (dataOf c.bufs) (lay B)) = cells (dataOf c.bufs) (lay B) := by
  have heager : ∀ q ∈ lay B, ∀ d, (dataOf c.bufs).get q = some d → d.status.isFree →
      d.status = .eagerFree := by
    intro q hq d hd hfree
    obtain ⟨d', hd', hdB⟩ := (h.inv.mem_iff B hB q).mp hq
    rw [hd] at hd'
    cases hd'
    exact hfree.resolve_left (hidle q d hd (by rw [hdB]; exact hB))
  refine sweepCells_eq (fun st a n hmem => ?_) (fun L R st a n st' a' m hcs => ?_)
  · obtain ⟨q, hq, d, hd, hx⟩ := mem_cells.mp hmem
    obtain ⟨hfree, hst⟩ := Cell.of_eq_free hx
    rw [← hst]
    exact heager q hq d hd hfree
  · obtain ⟨q, r, d, e, hadj, hd, he, hx, hy⟩ := adj_of_cells (fun q hq => by
      obtain ⟨d, hd, -⟩ := (h.inv.mem_iff B hB q).mp hq
      exact ⟨d, hd⟩) hcs
    have hdst := heager q hadj.mem.1 d hd (Cell.of_eq_free hx).1
    have hest := heager r hadj.mem.2 e he (Cell.of_eq_free hy).1
    exact h.twins B hB q r d e hadj hd he (by simp) (by simp)
      ⟨hdst.trans hest.symm, (Cell.of_eq_free hx).1⟩

theorem held_mem_pushCell {q : Nat} {d : BufData} {x : Cell} {cs : List Cell} :
    .held q d ∈ pushCell x cs ↔ .held q d = x ∨ .held q d ∈ cs := by
  cases x with
  | held r e => exact List.mem_cons
  | free st a n =>
      cases cs with
      | nil => simp [pushCell]
      | cons y cs => cases y <;> simp [pushCell]

/-- Held buffers are not touched. -/
theorem held_mem_sweepCells {q : Nat} {d : BufData} {cs : List Cell} :
    .held q d ∈ sweepCells cs ↔ .held q d ∈ cs := by
  induction cs with
  | nil => exact Iff.rfl
  | cons x cs ih => rw [sweepCells_cons, held_mem_pushCell, ih, List.mem_cons]

theorem free_mem_pushCell {st : MemBufStatus} {a n : Nat} {x : Cell} {cs : List Cell}
    (hcs : ∀ st a n, .free st a n ∈ cs → st = .eagerFree) (h : .free st a n ∈ pushCell x cs) :
    st = .eagerFree := by
  cases x with
  | held r e =>
      rcases List.mem_cons.mp h with heq | h
      · cases heq
      · exact hcs st a n h
  | free st' a' n' =>
      cases cs with
      | nil =>
          rcases List.mem_cons.mp h with heq | h
          · cases heq
            rfl
          · cases h
      | cons y cs =>
          cases y with
          | held r e =>
              rcases List.mem_cons.mp h with heq | h
              · cases heq
                rfl
              · exact hcs st a n h
          | free st'' a'' m =>
              rcases List.mem_cons.mp h with heq | h
              · cases heq
                rfl
              · exact hcs st a n (.tail _ h)

/-- No free memory but eagerly free one is left. -/
theorem free_mem_sweepCells {st : MemBufStatus} {a n : Nat} {cs : List Cell}
    (h : .free st a n ∈ sweepCells cs) : st = .eagerFree := by
  induction cs generalizing st a n with
  | nil => cases h
  | cons x cs ih => exact free_mem_pushCell (fun _ _ _ h => ih h) h

/-! ## The whole call -/

/-- The buffers of the block `B`, in the order of their addresses. -/
structure Chained (c : Ctx ε) (B : Nat) (ps : List Nat) : Prop where
  tiles : ∃ blk, c.blocks.get B = some blk ∧
    Seg c.bufs none blk.addr ps none (blk.addr + blk.size)
  mem_iff : ∀ p, p ∈ ps ↔ ∃ b, c.bufs.get p = some b ∧ b.memBlock = B
  nodup : ps.Nodup

theorem AllocInv.chained {x : Option Nat} (h : AllocInv c.bufs c.blocks c.alloc lay x) {B : Nat}
    (hB : B ∈ c.alloc.memBlocks) : Chained c B (lay B) where
  tiles := h.chain B hB
  mem_iff := fun p => by
    refine ⟨h.memBlock_of_mem hB, fun ⟨b, hb, hbB⟩ => ?_⟩
    exact (h.mem_iff B hB p).mpr ⟨b.data, dataOf_get hb, hbB⟩
  nodup := h.nodup B hB

/-- What `FreeIdleMemsByEagerFree` is for: `n` is the first of the two sizes it returns. -/
structure Swept (c : Ctx ε) (n : Nat) (c' : Ctx ε) : Prop where
  free : c'.alloc.freeMemBufs = []
  held : ∀ p b, c.bufs.get p = some b → ¬ b.status.isFree →
    ∃ b', c'.bufs.get p = some b' ∧ b'.data = b.data
  own : c'.alloc.memBlocks = c.alloc.memBlocks
  blocks : c'.blocks = c.blocks
  runs : ∀ B ∈ c.alloc.memBlocks, ∃ ps ps', Chained c B ps ∧ Chained c' B ps' ∧
    cells (dataOf c'.bufs) ps' = sweepCells (cells (dataOf c.bufs) ps)
  eager : ∀ p, p ∈ c'.alloc.eagerFreeMemBufs ↔ ∃ b, c'.bufs.get p = some b ∧
    b.memBlock ∈ c'.alloc.memBlocks ∧ b.status = .eagerFree
  total : n = idleTotal c.bufs

/-- All free buffers belong to the allocator. -/
def FreeOwned (c : Ctx ε) : Prop :=
  ∀ p b, c.bufs.get p = some b → b.status.isFree → b.memBlock ∈ c.alloc.memBlocks

/-- The blocks lie in the address space. -/
def BlocksInSpace (c : Ctx ε) : Prop :=
  ∀ B ∈ c.alloc.memBlocks, ∀ blk, c.blocks.get B = some blk → blk.addr + blk.size < sizeBound

theorem Tidy.set_eager (h : Tidy c lay none) (p : Nat) :
    p ∈ c.alloc.eagerFreeMemBufs ↔ ∃ b, c.bufs.get p = some b ∧
      b.memBlock ∈ c.alloc.memBlocks ∧ b.status = .eagerFree := by
  constructor
  · intro hp
    obtain ⟨-, d, hd, hB, hst⟩ := h.inv.eager.sound p hp
    obtain ⟨b, hb, rfl⟩ := dataOf_get_some hd
    exact ⟨b, hb, hB, hst⟩
  · rintro ⟨b, hb, hB, hst⟩
    exact h.eager p _ (dataOf_get hb) hB hst (by simp)

theorem Tidy.set_free (h : Tidy c lay none) (p : Nat) :
    p ∈ c.alloc.freeMemBufs ↔ ∃ b, c.bufs.get p = some b ∧
      b.memBlock ∈ c.alloc.memBlocks ∧ b.status = .idle := by
  constructor
  · intro hp
    obtain ⟨-, d, hd, hB, hst⟩ := h.inv.free.sound p hp
    obtain ⟨b, hb, rfl⟩ := dataOf_get_some hd
    exact ⟨b, hb, hB, hst⟩
  · rintro ⟨b, hb, hB, hst⟩
    exact h.free p _ (dataOf_get hb) hB hst (by simp)

/-- Where an idle buffer starts. -/
def idleAddr (d : BufData) : Nat := if d.status = .idle then d.addr else 0

/-- The idle buffers do not overlap, so that their sizes add up to a `size_t`. -/
theorem idleTotal_lt (h : Tidy c lay none) (hown : FreeOwned c) (hspace : BlocksInSpace c) :
    idleTotal c.bufs < sizeBound := by
  -- buffers that are not idle count as empty ones at address `0`
  have hcases : ∀ p d, (dataOf c.bufs).get p = some d →
      (d.sizeIn (fun st => st = .idle) = 0 ∧ idleAddr d = 0) ∨
      (d.sizeIn (fun st => st = .idle) = d.size ∧ idleAddr d = d.addr ∧
        d.memBlock ∈ c.alloc.memBlocks) := by
    intro p d hd
    obtain ⟨b, hb, rfl⟩ := dataOf_get_some hd
    unfold BufData.sizeIn idleAddr
    by_cases hst : b.data.status = .idle
    · exact .inr ⟨if_pos (decide_eq_true hst), if_pos hst, hown p b hb (.inl hst)⟩
    · exact .inl ⟨if_neg (by rw [decide_eq_true_eq]; exact hst), if_neg hst⟩
  have hsum : idleTotal c.bufs ≤ sizeBound - 1 := by
    refine Heap.sum_le_of_disjoint idleAddr (fun p q d e a hp hq h1 h2 h3 h4 => ?_)
      (fun p d hp => ?_)
    · rcases hcases p d hp with ⟨hd0, hd1⟩ | ⟨hd0, hd1, hdB⟩
      · omega
      · rcases hcases q e hq with ⟨he0, he1⟩ | ⟨he0, he1, heB⟩
        · omega
        · rw [hd1] at h1
          rw [hd0, hd1] at h2
          rw [he1] at h3
          rw [he0, he1] at h4
          exact h.inv.eq_of_overlap hp hq hdB heB ⟨h1, h2⟩ ⟨h3, h4⟩
    · rcases hcases p d hp with ⟨hd0, hd1⟩ | ⟨hd0, hd1, hdB⟩
      · rw [hd0, hd1]
        exact Nat.zero_le _
      · obtain ⟨blk, hblk, -, hhi⟩ := h.inv.inside hp hdB
        rw [hd0, hd1]
        exact Nat.le_sub_one_of_lt (Nat.lt_of_le_of_lt hhi (hspace _ hdB blk hblk))
  exact Nat.lt_of_le_of_lt hsum (Nat.sub_one_lt (by decide))

theorem freeIdleMemsByEagerFree_swept {cb : Callbacks ε} {sizes : Nat × Nat}
    (h : Tidy c lay none) (hown : FreeOwned c) (hspace : BlocksInSpace c)
    (hres : MemBufAllocator.freeIdleMemsByEagerFree cb c = some (sizes, c')) :
    Swept c sizes.1 c' ∧ ∃ lay', Ext c c' lay lay' ∧ Tidy c' lay' none := by
  obtain ⟨-, lay', hw⟩ := MemBufAllocator.eagerFreeAll_walked c.alloc.freeMemBufs 0 h (by decide)
  unfold MemBufAllocator.freeIdleMemsByEagerFree at hres
  generalize MemBufAllocator.eagerFreeAll c.alloc.freeMemBufs 0 c = walk at hres hw
  obtain ⟨total, c₁⟩ := walk
  obtain ⟨⟨real, c₂⟩, hdev, hres⟩ := Option.bind_eq_some_iff.mp hres
  cases hres
  obtain ⟨⟨env, rfl⟩, -⟩ := MemBufAllocator.memEagerFreeAll_spec
    (c := MemBufAllocator.withFree [] c₁) (fun p hp => (hw.tidy.inv.eager.sound p hp).2) hdev
  have htidy : Tidy { MemBufAllocator.withFree [] c₁ with env } lay' none := hw.tidy.env env
  have hext : Ext c c₁ lay lay' := hw.ext
  have hown₁ : c₁.alloc.memBlocks = c.alloc.memBlocks := hw.own
  have hidle : ∀ p d, (dataOf c₁.bufs).get p = some d → d.memBlock ∈ c₁.alloc.memBlocks →
      d.status ≠ .idle := fun p d hd hB hst =>
    List.not_mem_nil (hw.tidy.free p d hd hB hst (by simp))
  have hcells : ∀ B ∈ c.alloc.memBlocks,
      cells (dataOf c₁.bufs) (lay' B) = sweepCells (cells (dataOf c.bufs) (lay B)) := by
    intro B hB
    rw [← hw.swept B hB]
    exact (hw.tidy.swept hidle (by
      show B ∈ c₁.alloc.memBlocks
      rw [hown₁]
      exact hB)).symm
  refine ⟨⟨rfl, fun p b hb hst => ?_, hw.own, hw.blocks, fun B hB => ?_, htidy.set_eager, ?_⟩,
    lay',
    hext.trans (Ext.of_eq rfl rfl rfl rfl), htidy⟩
  · by_cases hB : b.memBlock ∈ c.alloc.memBlocks
    · have hmem : Cell.held p b.data ∈ cells (dataOf c.bufs) (lay b.memBlock) :=
        mem_cells.mpr ⟨p, h.inv.mem_lay hb hB, b.data, dataOf_get hb, Cell.of_held hst⟩
      rw [← held_mem_sweepCells, ← hcells _ hB] at hmem
      obtain ⟨q, -, d, hd, hcell⟩ := mem_cells.mp hmem
      unfold Cell.of at hcell
      split at hcell
      · cases hcell
      · cases hcell
        exact dataOf_get_some hd
    · refine ⟨b, (hext.outside p b ?_).mpr hb, rfl⟩
      rw [hown₁]
      exact hB
  · refine ⟨lay B, lay' B, h.inv.chained hB, htidy.inv.chained ?_, hcells B hB⟩
    show B ∈ c₁.alloc.memBlocks
    rw [hown₁]
    exact hB
  · obtain ⟨n, htot, hsum⟩ := hw.total
    have hzero : idleTotal c₁.bufs = 0 := by
      refine Heap.sum_eq_zero fun p d hd => if_neg ?_
      rw [decide_eq_true_eq]
      intro hst
      obtain ⟨b, hb, rfl⟩ := dataOf_get_some hd
      refine hidle p _ hd ?_ hst
      show b.memBlock ∈ c₁.alloc.memBlocks
      by_contra hB
      rw [hown₁] at hB
      exact hB (hown p b ((hext.outside p b (by rw [hown₁]; exact hB)).mp hb) (.inl hst))
    have hn : n = idleTotal c.bufs := by
      have hsum : n + idleTotal c₁.bufs = idleTotal c.bufs := hsum
      omega
    show total = _
    have htot : total = (0 + n) % sizeBound := htot
    rw [htot, Nat.zero_add, hn, Nat.mod_eq_of_lt (idleTotal_lt h hown hspace)]

end Ccbase.Memory
