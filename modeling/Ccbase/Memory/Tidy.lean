import Ccbase.Memory.Malloc

/-!
# Merged neighbours and complete sets

`AllocInv` says nothing about two free neighbours and little about buffers of size `0`.
Here is what holds besides as long as `Malloc` is asked for at least one byte: no two
neighbours are both idle or both eagerly free, a buffer of size `0` is the first one of its
block, and the two sets hold all buffers of their status, empty ones included. The last
point needs blocks that start at different addresses; otherwise two empty buffers could
have the same key.

As with `AllocInv`, one buffer may be detached: it is in no set, and nothing is said about
it and its neighbours.
-/

namespace Ccbase.Memory

open Ccbase.Lib Chain

variable {ε : Type}

/-- The blocks start at different addresses. -/
def Spaced (blocks : Heap MemBlock) (own : List Nat) : Prop :=
  ∀ B ∈ own, ∀ C ∈ own, B ≠ C → ∀ blk k, blocks.get B = some blk →
    blocks.get C = some k → blk.addr ≠ k.addr

/-- Both are idle or both are eagerly free. -/
def Twins (d e : BufData) : Prop := d.status = e.status ∧ d.status.isFree

/-- The buffers of the status are in the set, but for the detached one. -/
def SetFull (D : Heap BufData) (own : List Nat) (st : MemBufStatus) (ps : List Nat)
    (x : Option Nat) : Prop :=
  ∀ p d, D.get p = some d → d.memBlock ∈ own → d.status = st → x ≠ some p → p ∈ ps

structure Tidy (c : Ctx ε) (lay : Nat → List Nat) (x : Option Nat) : Prop where
  inv : AllocInv c.bufs c.blocks c.alloc lay x
  spaced : Spaced c.blocks c.alloc.memBlocks
  zero : ∀ B ∈ c.alloc.memBlocks, ∀ p ∈ (lay B).tail, ∀ d,
    (dataOf c.bufs).get p = some d → 0 < d.size
  twins : ∀ B ∈ c.alloc.memBlocks, ∀ q r d e, Adj (lay B) q r →
    (dataOf c.bufs).get q = some d → (dataOf c.bufs).get r = some e →
    x ≠ some q → x ≠ some r → ¬ Twins d e
  free : SetFull (dataOf c.bufs) c.alloc.memBlocks .idle c.alloc.freeMemBufs x
  eager : SetFull (dataOf c.bufs) c.alloc.memBlocks .eagerFree c.alloc.eagerFreeMemBufs x

variable {c c' : Ctx ε} {lay : Nat → List Nat} {x : Option Nat} {p q : Nat} {b : MemBuf}

/-! ## Keys -/

/-- An empty buffer starts its block. -/
theorem Tidy.first_of_empty (h : Tidy c lay x) {d : BufData}
    (hp : (dataOf c.bufs).get p = some d) (hB : d.memBlock ∈ c.alloc.memBlocks)
    (hzero : d.size = 0) :
    ∃ R blk, lay d.memBlock = p :: R ∧ c.blocks.get d.memBlock = some blk ∧
      d.addr = blk.addr := by
  obtain ⟨blk, hblk, hseg⟩ := h.inv.chain _ hB
  have hmem := (h.inv.mem_iff _ hB p).mpr ⟨d, hp, rfl⟩
  cases hlay : lay d.memBlock with
  | nil =>
      rw [hlay] at hmem
      cases hmem
  | cons r R =>
      rw [hlay] at hmem hseg
      rcases List.mem_cons.mp hmem with rfl | hmem
      · obtain ⟨y, hy, _, _, hlo, _⟩ := hseg
        obtain ⟨y', hy', rfl⟩ := dataOf_get_some hp
        rw [hy] at hy'
        cases hy'
        exact ⟨R, blk, rfl, hblk, hlo⟩
      · have hpos := h.zero _ hB p (by rw [hlay]; exact hmem) d hp
        omega

/-- The key of a buffer tells it apart from all others of its allocator. -/
theorem Tidy.eq_of_key (h : Tidy c lay x) {d e : BufData}
    (hp : (dataOf c.bufs).get p = some d) (hq : (dataOf c.bufs).get q = some e)
    (hdB : d.memBlock ∈ c.alloc.memBlocks) (heB : e.memBlock ∈ c.alloc.memBlocks)
    (hkey : dataKey (dataOf c.bufs) p = dataKey (dataOf c.bufs) q) : p = q := by
  rcases Nat.eq_zero_or_pos d.size with hzero | hpos
  · rw [dataKey_of_get hp, dataKey_of_get hq] at hkey
    have heq : (d.size, d.addr) = (e.size, e.addr) := hkey
    obtain ⟨hsize, haddr⟩ := Prod.mk.inj heq
    obtain ⟨R, blk, hlay, hblk, hd⟩ := h.first_of_empty hp hdB hzero
    obtain ⟨R', k, hlay', hk, he⟩ := h.first_of_empty hq heB (by omega)
    have hB : d.memBlock = e.memBlock := by
      by_contra hne
      exact h.spaced _ hdB _ heB hne blk k hblk hk (by omega)
    rw [hB, hlay'] at hlay
    exact (List.cons.inj hlay).1.symm
  · exact h.inv.eq_of_key hp hq hdB heB hpos hkey

/-! ## Sets -/

section Sets

variable {D D' : Heap BufData} {own : List Nat} {st : MemBufStatus} {ps : List Nat}

/-- Buffers that have the status now had it before. -/
theorem SetFull.congr (h : SetFull D own st ps x)
    (hback : ∀ q d, D'.get q = some d → d.memBlock ∈ own → d.status = st → x ≠ some q →
      ∃ d₀, D.get q = some d₀ ∧ d₀.memBlock ∈ own ∧ d₀.status = st) :
    SetFull D' own st ps x := by
  intro q d hd hB hst hx
  obtain ⟨d₀, hd₀, hB₀, hst₀⟩ := hback q d hd hB hst hx
  exact h q d₀ hd₀ hB₀ hst₀ hx

theorem SetFull.modify (h : SetFull D own st ps (some p)) (f : BufData → BufData) :
    SetFull (D.modify p f) own st ps (some p) := by
  refine h.congr fun q d hd hB hst hx => ⟨d, ?_, hB, hst⟩
  rwa [Heap.get_modify_ne _ _ fun heq => hx (by rw [heq])] at hd

theorem SetFull.delete (h : SetFull D own st ps x) : SetFull (D.delete q) own st ps x := by
  refine h.congr fun r d hd hB hst _ => ⟨d, ?_, hB, hst⟩
  rw [Heap.get_delete] at hd
  split at hd
  · cases hd
  · exact hd

theorem SetFull.erase_delete (h : SetFull D own st ps (some p))
    (huniq : ∀ r e, D.get r = some e → e.memBlock ∈ own → r ≠ p →
      dataKey D r = dataKey D q → r = q) :
    SetFull (D.delete q) own st (OrdSet.erase (dataKey D) (dataKey D q) ps) (some p) := by
  intro r e he hB hst hx
  rw [Heap.get_delete] at he
  split at he
  · cases he
  · rename_i hrq
    refine OrdSet.mem_erase_of_ne (h r e he hB hst hx) fun hkey => hrq ?_
    exact huniq r e he hB (fun heq => hx (by rw [heq])) hkey

theorem SetFull.emplace (h : SetFull D own st ps (some p))
    (huniq : ∀ y ∈ ps, dataKey D y ≠ dataKey D p) :
    SetFull D own st (OrdSet.emplace (dataKey D) p ps) none := by
  intro r e he hB hst _
  by_cases hrp : r = p
  · subst hrp
    exact OrdSet.mem_emplace_self huniq
  · exact OrdSet.mem_emplace_of_mem
      (h r e he hB hst fun heq => hrp (Option.some.inj heq).symm)

theorem SetFull.detach (h : SetFull D own st ps none) : SetFull D own st ps (some p) :=
  fun q e he hB hst _ => h q e he hB hst (by simp)

theorem SetFull.attach {d : BufData} (h : SetFull D own st ps (some p))
    (hp : D.get p = some d) (hst : d.status ≠ st) : SetFull D own st ps none := by
  intro q e he hB hste _
  refine h q e he hB hste fun heq => ?_
  cases heq
  rw [hp] at he
  cases he
  exact hst hste

theorem SetFull.erase_mem (h : SetFull D own st ps none) (hnd : ps.Nodup) :
    SetFull D own st (ps.erase p) (some p) := by
  intro q e he hB hst hx
  exact (List.Nodup.mem_erase_iff hnd).mpr
    ⟨fun heq => hx (by rw [heq]), h q e he hB hst (by simp)⟩

theorem SetFull.new (h : SetFull D own st ps none) (d : BufData) :
    SetFull (D.new d) own st ps (some D.next) := by
  intro q e he hB hst hx
  rw [Heap.get_new, if_neg fun heq => hx (by rw [heq])] at he
  exact h q e he hB hst (by simp)

theorem SetFull.new_ne (h : SetFull D own st ps x) {d : BufData} (hst : d.status ≠ st) :
    SetFull (D.new d) own st ps x := by
  refine h.congr fun q e he hB hste _ => ⟨e, ?_, hB, hste⟩
  rw [Heap.get_new] at he
  split at he
  · cases he
    exact absurd hste hst
  · exact he

theorem SetFull.new_emplace (h : SetFull D own st ps x) {d : BufData}
    (huniq : ∀ y ∈ ps, dataKey (D.new d) y ≠ dataKey (D.new d) D.next) :
    SetFull (D.new d) own st (OrdSet.emplace (dataKey (D.new d)) D.next ps) x := by
  intro r e he hB hst hx
  rw [Heap.get_new] at he
  split at he
  · rename_i hr
    rw [hr]
    exact OrdSet.mem_emplace_self huniq
  · exact OrdSet.mem_emplace_of_mem (h r e he hB hst hx)

end Sets

/-! ## The cells of a block -/

/-- What a client sees of a block: the buffers in use, and between them free memory. -/
inductive Cell where
  | held (p : Nat) (d : BufData)
  | free (status : MemBufStatus) (addr size : Nat)

def Cell.of (p : Nat) (d : BufData) : Cell :=
  if d.status.isFree then .free d.status d.addr d.size else .held p d

theorem Cell.of_free {d : BufData} (h : d.status.isFree) :
    Cell.of p d = .free d.status d.addr d.size := if_pos h

theorem Cell.of_held {d : BufData} (h : ¬ d.status.isFree) : Cell.of p d = .held p d := if_neg h

def cells (D : Heap BufData) (ps : List Nat) : List Cell :=
  ps.filterMap fun p => (D.get p).map (Cell.of p)

theorem cells_cons {D : Heap BufData} {d : BufData} (hp : D.get p = some d) (ps : List Nat) :
    cells D (p :: ps) = Cell.of p d :: cells D ps := by
  rw [cells, List.filterMap_cons, hp]
  rfl

theorem cells_append (D : Heap BufData) (ps qs : List Nat) :
    cells D (ps ++ qs) = cells D ps ++ cells D qs := List.filterMap_append

theorem cells_congr {D D' : Heap BufData} {ps : List Nat}
    (h : ∀ r ∈ ps, D'.get r = D.get r) : cells D' ps = cells D ps :=
  List.filterMap_congr fun r hr => by rw [h r hr]

/-- A cell in front of others: free memory is joined with the free memory behind it. -/
def pushCell : Cell → List Cell → List Cell
  | .held p d, cs => .held p d :: cs
  | .free _ a n, .free _ _ m :: cs => .free .eagerFree a (n + m) :: cs
  | .free _ a n, cs => .free .eagerFree a n :: cs

/-- Every maximal run of free cells becomes one eagerly free cell. -/
def sweepCells (cs : List Cell) : List Cell := cs.foldr pushCell []

theorem sweepCells_cons (x : Cell) (cs : List Cell) :
    sweepCells (x :: cs) = pushCell x (sweepCells cs) := rfl

theorem sweepCells_append (cs ds : List Cell) :
    sweepCells (cs ++ ds) = cs.foldr pushCell (sweepCells ds) := List.foldr_append

/-- The status of free memory does not matter. -/
theorem pushCell_status (st st' : MemBufStatus) (a n : Nat) (cs : List Cell) :
    pushCell (.free st a n) cs = pushCell (.free st' a n) cs := by
  cases cs with
  | nil => rfl
  | cons x cs => cases x <;> rfl

/-- Two free cells next to each other count as one. -/
theorem pushCell_join (st st' st'' : MemBufStatus) (a a' n m : Nat) (cs : List Cell) :
    pushCell (.free st a n) (pushCell (.free st' a' m) cs) =
      pushCell (.free st'' a (n + m)) cs := by
  cases cs with
  | nil => rfl
  | cons x cs =>
      cases x with
      | held p d => rfl
      | free s₀ a₀ k =>
          show Cell.free .eagerFree a (n + (m + k)) :: cs = .free .eagerFree a (n + m + k) :: cs
          rw [Nat.add_assoc]

/-- Cells in which no run is left to join are not changed. -/
theorem sweepCells_eq {cs : List Cell}
    (hidle : ∀ st a n, Cell.free st a n ∈ cs → st = .eagerFree)
    (hadj : ∀ L R st a n st' a' m, cs ≠ L ++ .free st a n :: .free st' a' m :: R) :
    sweepCells cs = cs := by
  induction cs with
  | nil => rfl
  | cons x cs ih =>
      rw [sweepCells_cons, ih (fun st a n h => hidle st a n (.tail _ h))
        (fun L R st a n st' a' m h => hadj (x :: L) R st a n st' a' m (by rw [h]; rfl))]
      cases x with
      | held p d => rfl
      | free st a n =>
          rw [hidle st a n (.head _)]
          cases cs with
          | nil => rfl
          | cons y cs =>
              cases y with
              | held p d => rfl
              | free st' a' m => exact absurd rfl (hadj [] cs st a n st' a' m)

/-- Two free neighbours have become one buffer. -/
theorem sweepCells_absorb {D D' : Heap BufData} {L R : List Nat} {q r s : Nat} {d e w : BufData}
    (hq : D.get q = some d) (hr : D.get r = some e) (hs : D'.get s = some w)
    (hd : d.status.isFree) (he : e.status.isFree) (hw : w.status.isFree)
    (haddr : w.addr = d.addr) (hsize : w.size = d.size + e.size)
    (hothers : ∀ t ∈ L ++ R, D'.get t = D.get t) :
    sweepCells (cells D' (L ++ s :: R)) = sweepCells (cells D (L ++ q :: r :: R)) := by
  rw [cells_append, cells_append, cells_cons hs, cells_cons hq, cells_cons hr,
    cells_congr fun t ht => hothers t (List.mem_append_left R ht),
    cells_congr fun t ht => hothers t (List.mem_append_right L ht), sweepCells_append,
    sweepCells_append]
  congr 1
  rw [sweepCells_cons, sweepCells_cons, sweepCells_cons, Cell.of_free hd, Cell.of_free he,
    Cell.of_free hw, pushCell_join _ _ w.status, haddr, hsize]

/-! ## Merging -/

section Merging

variable {y : MemBuf} {L R : List Nat} {bufs' : Heap MemBuf} {g : BufData → BufData}

/-- What is behind the first buffer without `q` was so before. -/
theorem mem_tail_of_removed {l : List Nat} {r : Nat}
    (hlay : l = L ++ q :: p :: R ∨ l = L ++ p :: q :: R) (hr : r ∈ (L ++ p :: R).tail) :
    r ∈ l.tail := by
  rcases hlay with rfl | rfl
  · cases L with
    | nil => exact .tail _ hr
    | cons x L =>
        simp only [List.cons_append, List.tail_cons, List.mem_append, List.mem_cons] at hr ⊢
        tauto
  · cases L with
    | nil => exact .tail _ hr
    | cons x L =>
        simp only [List.cons_append, List.tail_cons, List.mem_append, List.mem_cons] at hr ⊢
        tauto

/-- Two neighbours other than `p` were neighbours when `q` was there. -/
theorem adj_of_removed {l : List Nat} {r r' : Nat}
    (hlay : l = L ++ q :: p :: R ∨ l = L ++ p :: q :: R) (hr : r ≠ p) (hr' : r' ≠ p)
    (hadj : Adj (L ++ p :: R) r r') : Adj l r r' := by
  rw [adj_append_cons] at hadj
  rcases hadj with hadj | ⟨-, heq⟩ | ⟨heq, -⟩ | hadj
  · rcases hlay with rfl | rfl
    · rw [adj_append_cons]
      exact .inl hadj
    · rw [adj_append_cons]
      exact .inl hadj
  · exact absurd heq hr'
  · exact absurd heq hr
  · rcases hlay with rfl | rfl
    · rw [adj_append_cons, adj_cons]
      exact .inr (.inr (.inr (.inr hadj)))
    · rw [adj_append_cons, adj_cons]
      exact .inr (.inr (.inr (.inr hadj)))

/-- The neighbour `q` has gone into `p`. -/
theorem Tidy.absorb (h : Tidy c lay (some p)) (hp : c.bufs.get p = some b)
    (hq : c.bufs.get q = some y) (hpq : p ≠ q) (hB : b.memBlock ∈ c.alloc.memBlocks)
    (hBq : y.memBlock = b.memBlock) (hfree : b.status.isFree)
    (hlay : lay b.memBlock = L ++ q :: p :: R ∨ lay b.memBlock = L ++ p :: q :: R)
    (hdata : dataOf bufs' = (dataOf c.bufs).modify p g)
    (hsize : (g b.data).size = b.size + y.size)
    (hinv : AllocInv (bufs'.delete q) c.blocks (c.alloc.erase bufs' b.status q)
      (Function.update lay b.memBlock (L ++ p :: R)) (some p)) :
    Tidy { c with alloc := c.alloc.erase bufs' b.status q, bufs := bufs'.delete q }
      (Function.update lay b.memBlock (L ++ p :: R)) (some p) := by
  have hgetD : ∀ r, r ≠ p → (dataOf bufs').get r = (dataOf c.bufs).get r := fun r hr => by
    rw [hdata, Heap.get_modify_ne _ _ hr]
  have hdel : ∀ r d, (dataOf (bufs'.delete q)).get r = some d → r ≠ p →
      (dataOf c.bufs).get r = some d := by
    intro r d hd hr
    rw [dataOf_delete, Heap.get_delete] at hd
    split at hd
    · cases hd
    · rwa [hgetD r hr] at hd
  have huniq : ∀ r e, (dataOf bufs').get r = some e → e.memBlock ∈ c.alloc.memBlocks →
      r ≠ p → dataKey (dataOf bufs') r = dataKey (dataOf bufs') q → r = q := by
    intro r e he heB hr hkey
    rw [dataKey_congr (hgetD r hr), dataKey_congr (hgetD q hpq.symm)] at hkey
    rw [hgetD r hr] at he
    exact h.eq_of_key he (dataOf_get hq) heB (show y.memBlock ∈ _ by rw [hBq]; exact hB) hkey
  have hkeep : ∀ st ps, SetFull (dataOf c.bufs) c.alloc.memBlocks st ps (some p) →
      SetFull (dataOf (bufs'.delete q)) c.alloc.memBlocks st ps (some p) := by
    intro st ps hs
    rw [dataOf_delete, hdata]
    exact (hs.modify g).delete
  have herase : ∀ st ps, SetFull (dataOf c.bufs) c.alloc.memBlocks st ps (some p) →
      SetFull (dataOf (bufs'.delete q)) c.alloc.memBlocks st
        (OrdSet.erase (memBufKey bufs') (memBufKey bufs' q) ps) (some p) := by
    intro st ps hs
    rw [dataOf_delete, memBufKey_eq]
    refine SetFull.erase_delete ?_ huniq
    rw [hdata]
    exact hs.modify g
  have hown : (c.alloc.erase bufs' b.status q).memBlocks = c.alloc.memBlocks :=
    MemBufAllocator.erase_memBlocks ..
  exact {
    inv := hinv
    spaced := by
      show Spaced c.blocks (c.alloc.erase bufs' b.status q).memBlocks
      rw [hown]
      exact h.spaced
    zero := by
      intro B hB' r hr d hd
      change B ∈ (c.alloc.erase bufs' b.status q).memBlocks at hB'
      rw [hown] at hB'
      by_cases hBB : B = b.memBlock
      · subst hBB
        rw [Function.update_self] at hr
        have hr' := mem_tail_of_removed hlay hr
        by_cases hrp : r = p
        · subst hrp
          have hpos : 0 < b.size := h.zero _ hB r hr' _ (dataOf_get hp)
          rw [dataOf_delete, Heap.get_delete_ne _ hpq, hdata, Heap.get_modify_self,
            dataOf_get hp] at hd
          cases hd
          omega
        · exact h.zero _ hB r hr' d (hdel r d hd hrp)
      · rw [Function.update_of_ne hBB] at hr
        have hrp : r ≠ p := by
          rintro rfl
          obtain ⟨y', hy', hyB⟩ := h.inv.memBlock_of_mem hB' (List.mem_of_mem_tail hr)
          rw [hp] at hy'
          cases hy'
          exact hBB hyB.symm
        exact h.zero B hB' r hr d (hdel r d hd hrp)
    twins := by
      intro B hB' r r' d e hadj hd he hr hr'
      change B ∈ (c.alloc.erase bufs' b.status q).memBlocks at hB'
      rw [hown] at hB'
      have hrp : r ≠ p := fun heq => hr (by rw [heq])
      have hrp' : r' ≠ p := fun heq => hr' (by rw [heq])
      refine h.twins B hB' r r' d e ?_ (hdel r d hd hrp) (hdel r' e he hrp') hr hr'
      by_cases hBB : B = b.memBlock
      · subst hBB
        rw [Function.update_self] at hadj
        exact adj_of_removed hlay hrp hrp' hadj
      · rwa [Function.update_of_ne hBB] at hadj
    free := by
      show SetFull _ (c.alloc.erase bufs' b.status q).memBlocks _
        (c.alloc.erase bufs' b.status q).freeMemBufs _
      rw [hown]
      rcases hfree with hst | hst
      · rw [hst]
        exact herase _ _ h.free
      · rw [hst]
        exact hkeep _ _ h.free
    eager := by
      show SetFull _ (c.alloc.erase bufs' b.status q).memBlocks _
        (c.alloc.erase bufs' b.status q).eagerFreeMemBufs _
      rw [hown]
      rcases hfree with hst | hst
      · rw [hst]
        exact hkeep _ _ h.eager
      · rw [hst]
        exact herase _ _ h.eager }

/-- The detached buffer `p` has been merged with a neighbour, or with none. -/
structure Absorbed (c : Ctx ε) (lay : Nat → List Nat) (p : Nat) (b : MemBuf) (c' : Ctx ε)
    (lay' : Nat → List Nat) (b' : MemBuf) : Prop where
  merged : MemBufAllocator.Merged c lay p b c' lay' b'
  tidy : Tidy c' lay' (some p)
  swept : ∀ B ∈ c.alloc.memBlocks,
    sweepCells (cells (dataOf c'.bufs) (lay' B)) = sweepCells (cells (dataOf c.bufs) (lay B))

theorem Absorbed.refl (h : Tidy c lay (some p)) (hp : c.bufs.get p = some b) :
    Absorbed c lay p b c lay b :=
  ⟨.refl h.inv hp, h, fun _ _ => rfl⟩

theorem Absorbed.trans {c'' : Ctx ε} {lay' lay'' : Nat → List Nat} {b' b'' : MemBuf}
    (h : Absorbed c lay p b c' lay' b') (h' : Absorbed c' lay' p b' c'' lay'' b'') :
    Absorbed c lay p b c'' lay'' b'' :=
  ⟨h.merged.trans h'.merged, h'.tidy, fun B hB =>
    (h'.swept B (by rw [h.merged.own]; exact hB)).trans (h.swept B hB)⟩

/-- Buffers of other blocks are not concerned. -/
theorem Tidy.cells_other (h : Tidy c lay x) (hp : c.bufs.get p = some b)
    (hq : c.bufs.get q = some y) (hBq : y.memBlock = b.memBlock) {D' : Heap BufData}
    (hD' : ∀ r, r ≠ p → r ≠ q → D'.get r = (dataOf c.bufs).get r) {B : Nat}
    (hB : B ∈ c.alloc.memBlocks) (hne : B ≠ b.memBlock) :
    cells D' (lay B) = cells (dataOf c.bufs) (lay B) := by
  refine cells_congr fun r hr => ?_
  obtain ⟨z, hz, hzB⟩ := h.inv.memBlock_of_mem hB hr
  refine hD' r ?_ ?_
  · rintro rfl
    rw [hp] at hz
    cases hz
    exact hne hzB.symm
  · rintro rfl
    rw [hq] at hz
    cases hz
    exact hne (hzB.symm.trans hBq)

end Merging

namespace MemBufAllocator

theorem mergePrev_tidy (h : Tidy c lay (some p)) (hp : c.bufs.get p = some b)
    (hB : b.memBlock ∈ c.alloc.memBlocks) (hfree : b.status.isFree) :
    ∃ lay' b', Absorbed c lay p b (mergePrev p b.status c) lay' b' ∧
      ∀ q d, Adj (lay' b.memBlock) q p →
        (dataOf (mergePrev p b.status c).bufs).get q = some d → d.status ≠ b.status := by
  rcases mergePrev_cases h.inv hp hB hfree with ⟨heq, hleft⟩ |
      ⟨L, q, R, y, b', hlay, hy, hst, hdat, hbufs, halloc, hm⟩
  · rw [heq]
    refine ⟨lay, b, .refl h hp, fun q d hadj hd => ?_⟩
    obtain ⟨blk, -, hseg⟩ := h.inv.chain _ hB
    obtain ⟨z, b₁, hz, hb₁, -, hprev⟩ := hseg.adj hadj
    rw [hp] at hb₁
    cases hb₁
    rw [dataOf_get hz] at hd
    cases hd
    exact hleft q z hprev hz
  · have hnd := h.inv.nodup _ hB
    rw [hlay] at hnd
    have hsub : (L ++ p :: R).Sublist (L ++ q :: p :: R) :=
      (List.sublist_cons_self q (p :: R)).append_left L
    obtain ⟨hndL, hndR, hLR⟩ := List.nodup_append.mp hnd
    have hqR := List.nodup_cons.mp hndR
    have hpq : p ≠ q := fun heq => hqR.1 (by simp [heq])
    have hBq : y.memBlock = b.memBlock := by
      obtain ⟨z, hz, hzB⟩ := h.inv.memBlock_of_mem hB (p := q) (by rw [hlay]; simp)
      rw [hy] at hz
      cases hz
      exact hzB
    have hdata : dataOf (mergePrev p b.status c).bufs = ((dataOf c.bufs).modify p
        fun d => { d with addr := y.addr, size := d.size + y.size }).delete q := by
      rw [hbufs, dataOf_delete, dataOf_absorbPrev]
    have hD' : ∀ r, r ≠ p → r ≠ q →
        (dataOf (mergePrev p b.status c).bufs).get r = (dataOf c.bufs).get r := by
      intro r hr hr'
      rw [hdata, Heap.get_delete_ne _ hr', Heap.get_modify_ne _ _ hr]
    have hctx : mergePrev p b.status c = { c with
        alloc := c.alloc.erase (absorbPrev p y c.bufs) b.status q
        bufs := (absorbPrev p y c.bufs).delete q } := by
      rw [← hbufs, ← halloc, ← hm.blocks, ← hm.env]
    have htidy : Tidy (mergePrev p b.status c)
        (Function.update lay b.memBlock (L ++ p :: R)) (some p) := by
      have hinv := hm.inv
      rw [hctx] at hinv ⊢
      exact h.absorb hp hy hpq hB hBq hfree (.inl hlay) (dataOf_absorbPrev ..) rfl hinv
    have hothers : ∀ t ∈ L ++ R, t ≠ p ∧ t ≠ q := by
      intro t ht
      rcases List.mem_append.mp ht with ht | ht
      · exact ⟨hLR t ht p (by simp), hLR t ht q (by simp)⟩
      · exact ⟨fun heq => (List.nodup_cons.mp hqR.2).1 (heq ▸ ht),
          fun heq => hqR.1 (by simp [← heq, ht])⟩
    refine ⟨_, b', ⟨hm, htidy, fun B hB' => ?_⟩, fun r d hadj hd => ?_⟩
    · by_cases hBB : B = b.memBlock
      · subst hBB
        rw [Function.update_self, hlay]
        refine sweepCells_absorb (dataOf_get hy) (dataOf_get hp) (dataOf_get hm.get) ?_ hfree ?_
          ?_ ?_ fun t ht => hD' t (hothers t ht).1 (hothers t ht).2
        · rw [← hst] at hfree
          exact hfree
        · rw [hdat]
          exact hfree
        · rw [hdat]
          rfl
        · rw [hdat]
          exact Nat.add_comm _ _
      · rw [Function.update_of_ne hBB, h.cells_other hp hy hBq hD' hB' hBB]
    · rw [Function.update_self] at hadj
      have hlast := adj_left (hnd.sublist hsub) hadj
      have hrL := List.mem_of_mem_getLast? hlast
      obtain ⟨hrp, hrq⟩ := hothers r (List.mem_append_left R hrL)
      rw [hD' r hrp hrq] at hd
      have hadj' : Adj (lay b.memBlock) r q := by
        rw [hlay, adj_append_cons]
        exact .inr (.inl ⟨hlast, rfl⟩)
      intro hdst
      refine h.twins _ hB r q d y.data hadj' hd (dataOf_get hy) (by simpa using hrp.symm)
        (by simpa using hpq) ⟨hdst.trans hst.symm, ?_⟩
      rw [hdst]
      exact hfree

theorem mergeNext_tidy (h : Tidy c lay (some p)) (hp : c.bufs.get p = some b)
    (hB : b.memBlock ∈ c.alloc.memBlocks) (hfree : b.status.isFree) :
    ∃ lay' b', Absorbed c lay p b (mergeNext p b.status c) lay' b' ∧
      (∀ r d, Adj (lay' b.memBlock) p r →
        (dataOf (mergeNext p b.status c).bufs).get r = some d → d.status ≠ b.status) ∧
      ∀ r d, Adj (lay' b.memBlock) r p →
        (dataOf (mergeNext p b.status c).bufs).get r = some d →
        Adj (lay b.memBlock) r p ∧ (dataOf c.bufs).get r = some d := by
  rcases mergeNext_cases h.inv hp hB hfree with ⟨heq, hright⟩ |
      ⟨L, q, R, y, b', hlay, hy, hst, hdat, hbufs, halloc, hm⟩
  · rw [heq]
    refine ⟨lay, b, .refl h hp, fun r d hadj hd => ?_, fun r d hadj hd => ⟨hadj, hd⟩⟩
    obtain ⟨blk, -, hseg⟩ := h.inv.chain _ hB
    obtain ⟨b₁, z, hb₁, hz, hnext, -⟩ := hseg.adj hadj
    rw [hp] at hb₁
    cases hb₁
    rw [dataOf_get hz] at hd
    cases hd
    exact hright r z hnext hz
  · have hnd := h.inv.nodup _ hB
    rw [hlay] at hnd
    have hsub : (L ++ p :: R).Sublist (L ++ p :: q :: R) :=
      ((List.sublist_cons_self q R).cons_cons p).append_left L
    obtain ⟨hndL, hndR, hLR⟩ := List.nodup_append.mp hnd
    have hpR := List.nodup_cons.mp hndR
    have hpq : p ≠ q := fun heq => hpR.1 (by simp [heq])
    have hBq : y.memBlock = b.memBlock := by
      obtain ⟨z, hz, hzB⟩ := h.inv.memBlock_of_mem hB (p := q) (by rw [hlay]; simp)
      rw [hy] at hz
      cases hz
      exact hzB
    have hdata : dataOf (mergeNext p b.status c).bufs = ((dataOf c.bufs).modify p
        fun d => { d with size := d.size + y.size }).delete q := by
      rw [hbufs, dataOf_delete, dataOf_absorbNext]
    have hD' : ∀ r, r ≠ p → r ≠ q →
        (dataOf (mergeNext p b.status c).bufs).get r = (dataOf c.bufs).get r := by
      intro r hr hr'
      rw [hdata, Heap.get_delete_ne _ hr', Heap.get_modify_ne _ _ hr]
    have hctx : mergeNext p b.status c = { c with
        alloc := c.alloc.erase (absorbNext p y c.bufs) b.status q
        bufs := (absorbNext p y c.bufs).delete q } := by
      rw [← hbufs, ← halloc, ← hm.blocks, ← hm.env]
    have htidy : Tidy (mergeNext p b.status c)
        (Function.update lay b.memBlock (L ++ p :: R)) (some p) := by
      have hinv := hm.inv
      rw [hctx] at hinv ⊢
      exact h.absorb hp hy hpq hB hBq hfree (.inr hlay) (dataOf_absorbNext ..) rfl hinv
    have hothers : ∀ t ∈ L ++ R, t ≠ p ∧ t ≠ q := by
      intro t ht
      rcases List.mem_append.mp ht with ht | ht
      · exact ⟨hLR t ht p (by simp), hLR t ht q (by simp)⟩
      · exact ⟨fun heq => hpR.1 (by simp [← heq, ht]),
          fun heq => (List.nodup_cons.mp hpR.2).1 (heq ▸ ht)⟩
    refine ⟨_, b', ⟨hm, htidy, fun B hB' => ?_⟩, fun r d hadj hd => ?_, fun r d hadj hd => ?_⟩
    · by_cases hBB : B = b.memBlock
      · subst hBB
        rw [Function.update_self, hlay]
        refine sweepCells_absorb (dataOf_get hp) (dataOf_get hy) (dataOf_get hm.get) hfree ?_ ?_
          ?_ ?_ fun t ht => hD' t (hothers t ht).1 (hothers t ht).2
        · rw [← hst] at hfree
          exact hfree
        · rw [hdat]
          exact hfree
        · rw [hdat]
        · rw [hdat]
          rfl
      · rw [Function.update_of_ne hBB, h.cells_other hp hy hBq hD' hB' hBB]
    · rw [Function.update_self] at hadj
      have hhead := adj_right (hnd.sublist hsub) hadj
      obtain ⟨hrp, hrq⟩ := hothers r (List.mem_append_right L (List.mem_of_head? hhead))
      rw [hD' r hrp hrq] at hd
      have hadj' : Adj (lay b.memBlock) q r := by
        rw [hlay, adj_append_cons, adj_cons]
        exact .inr (.inr (.inr (.inl ⟨rfl, hhead⟩)))
      intro hdst
      refine h.twins _ hB q r y.data d hadj' (dataOf_get hy) hd (by simpa using hpq)
        (by simpa using hrp.symm) ⟨hst.trans hdst.symm, ?_⟩
      rw [← hst] at hfree
      exact hfree
    · rw [Function.update_self] at hadj
      have hlast := adj_left (hnd.sublist hsub) hadj
      obtain ⟨hrp, hrq⟩ := hothers r (List.mem_append_left R (List.mem_of_mem_getLast? hlast))
      rw [hD' r hrp hrq] at hd
      refine ⟨?_, hd⟩
      rw [hlay, adj_append_cons]
      exact .inr (.inl ⟨hlast, rfl⟩)

end MemBufAllocator

/-! ## Detaching, attaching and retagging -/

theorem Tidy.detach (h : Tidy c lay none) (hp : c.bufs.get p = some b)
    (hst : ¬ b.status.isFree) : Tidy c lay (some p) :=
  { inv := h.inv.detach hp hst
    spaced := h.spaced
    zero := h.zero
    twins := fun B hB q r d e hadj hd he _ _ =>
      h.twins B hB q r d e hadj hd he (by simp) (by simp)
    free := h.free.detach
    eager := h.eager.detach }

/-- Nothing is said about the detached buffer and its neighbours. -/
theorem Tidy.retag {f : MemBuf → MemBuf} {g : BufData → BufData} (h : Tidy c lay (some p))
    (hp : c.bufs.get p = some b) (hfg : ∀ b, (f b).data = g b.data)
    (hshape : shape (f b) = shape b) (hblk : (f b).memBlock = b.memBlock)
    (hB : b.memBlock ∈ c.alloc.memBlocks)
    (hquiet : (f b).status.isFree → (f b).isEventNotUsed = true) :
    Tidy { c with bufs := c.bufs.modify p f } lay (some p) := by
  have hdata : dataOf (c.bufs.modify p f) = (dataOf c.bufs).modify p g := dataOf_modify hfg _ _
  have hget : ∀ r, r ≠ p → (dataOf (c.bufs.modify p f)).get r = (dataOf c.bufs).get r :=
    fun r hr => by rw [hdata, Heap.get_modify_ne _ _ hr]
  have hsize : (f b).size = b.size := by
    have hlen := congrArg (fun s => s.2.2) hshape
    exact hlen
  exact {
    inv := h.inv.retag hp hfg hshape hblk hB hquiet
    spaced := h.spaced
    zero := by
      intro B hB' r hr d hd
      by_cases hrp : r = p
      · subst hrp
        have hpos : 0 < b.size := h.zero B hB' r hr _ (dataOf_get hp)
        have hd' : (dataOf (c.bufs.modify r f)).get r = some (f b).data :=
          dataOf_get (by rw [Heap.get_modify_self, hp]; rfl)
        rw [hd'] at hd
        cases hd
        show 0 < (f b).size
        rw [hsize]
        exact hpos
      · exact h.zero B hB' r hr d (hget r hrp ▸ hd)
    twins := by
      intro B hB' q r d e hadj hd he hq hr
      have hqp : q ≠ p := fun heq => hq (by rw [heq])
      have hrp : r ≠ p := fun heq => hr (by rw [heq])
      exact h.twins B hB' q r d e hadj (hget q hqp ▸ hd) (hget r hrp ▸ he) hq hr
    free := by
      show SetFull (dataOf (c.bufs.modify p f)) _ _ _ _
      rw [hdata]
      exact h.free.modify g
    eager := by
      show SetFull (dataOf (c.bufs.modify p f)) _ _ _ _
      rw [hdata]
      exact h.eager.modify g }

/-- A buffer that is not free is attached as it is. -/
theorem Tidy.attach (h : Tidy c lay (some p)) (hp : c.bufs.get p = some b)
    (hst : ¬ b.status.isFree) : Tidy c lay none :=
  { inv := h.inv.attach hp hst
    spaced := h.spaced
    zero := h.zero
    twins := by
      intro B hB q r d e hadj hd he _ _ htw
      by_cases hqp : q = p
      · subst hqp
        rw [dataOf_get hp] at hd
        cases hd
        exact hst htw.2
      · by_cases hrp : r = p
        · subst hrp
          rw [dataOf_get hp] at he
          cases he
          refine hst ?_
          have hfree := htw.2
          rw [htw.1] at hfree
          exact hfree
        · exact h.twins B hB q r d e hadj hd he (fun heq => hqp (Option.some.inj heq).symm)
            (fun heq => hrp (Option.some.inj heq).symm) htw
    free := h.free.attach (dataOf_get hp) fun heq => hst (.inl heq)
    eager := h.eager.attach (dataOf_get hp) fun heq => hst (.inr heq) }

/-- The neighbours of the buffer `p` have another status. -/
structure Alone (c : Ctx ε) (lay : Nat → List Nat) (p : Nat) (b : MemBuf) : Prop where
  left : ∀ q d, Adj (lay b.memBlock) q p → (dataOf c.bufs).get q = some d → d.status ≠ b.status
  right : ∀ r d, Adj (lay b.memBlock) p r → (dataOf c.bufs).get r = some d →
    d.status ≠ b.status

theorem Tidy.alone (h : Tidy c lay none) (hp : c.bufs.get p = some b)
    (hB : b.memBlock ∈ c.alloc.memBlocks) (hst : b.status.isFree) : Alone c lay p b where
  left := by
    intro q d hadj hd heq
    refine h.twins _ hB q p d b.data hadj hd (dataOf_get hp) (by simp) (by simp) ⟨heq, ?_⟩
    rw [heq]
    exact hst
  right := by
    intro r d hadj hd heq
    exact h.twins _ hB p r b.data d hadj (dataOf_get hp) hd (by simp) (by simp)
      ⟨heq.symm, hst⟩

/-- A free buffer without a twin next to it goes back into its set. -/
theorem Tidy.emplace (h : Tidy c lay (some p)) (hp : c.bufs.get p = some b)
    (hB : b.memBlock ∈ c.alloc.memBlocks) (hst : b.status.isFree) (halone : Alone c lay p b) :
    Tidy { c with alloc := c.alloc.emplace c.bufs b.status p } lay none := by
  have hown : (c.alloc.emplace c.bufs b.status p).memBlocks = c.alloc.memBlocks :=
    MemBufAllocator.emplace_memBlocks ..
  have huniq : ∀ st ps, SetOk (dataOf c.bufs) c.alloc.memBlocks st ps (some p) → ∀ y ∈ ps,
      dataKey (dataOf c.bufs) y ≠ dataKey (dataOf c.bufs) p := by
    intro st ps hs y hy hkey
    obtain ⟨hx, e, he, heB, -⟩ := hs.sound y hy
    exact hx (by rw [h.eq_of_key he (dataOf_get hp) heB hB hkey])
  have hmine : ∀ {B : Nat}, B ∈ c.alloc.memBlocks → p ∈ lay B → B = b.memBlock := by
    intro B hB' hmem
    obtain ⟨y, hy, hyB⟩ := h.inv.memBlock_of_mem hB' hmem
    rw [hp] at hy
    cases hy
    exact hyB.symm
  exact {
    inv := h.inv.emplace hp hB hst
    spaced := by
      show Spaced c.blocks (c.alloc.emplace c.bufs b.status p).memBlocks
      rw [hown]
      exact h.spaced
    zero := by
      show ∀ B ∈ (c.alloc.emplace c.bufs b.status p).memBlocks, _
      rw [hown]
      exact h.zero
    twins := by
      show ∀ B ∈ (c.alloc.emplace c.bufs b.status p).memBlocks, _
      rw [hown]
      intro B hB' q r d e hadj hd he _ _ htw
      by_cases hqp : q = p
      · subst hqp
        rw [hmine hB' hadj.mem.1] at hadj
        rw [dataOf_get hp] at hd
        cases hd
        exact halone.right r e hadj he htw.1.symm
      · by_cases hrp : r = p
        · subst hrp
          rw [hmine hB' hadj.mem.2] at hadj
          rw [dataOf_get hp] at he
          cases he
          exact halone.left q d hadj hd htw.1
        · exact h.twins B hB' q r d e hadj hd he (fun heq => hqp (Option.some.inj heq).symm)
            (fun heq => hrp (Option.some.inj heq).symm) htw
    free := by
      show SetFull _ (c.alloc.emplace c.bufs b.status p).memBlocks _ _ _
      rw [hown]
      rcases hst with hst | hst
      · rw [hst]
        show SetFull _ _ _ (OrdSet.emplace (memBufKey c.bufs) p c.alloc.freeMemBufs) _
        rw [memBufKey_eq]
        exact h.free.emplace (huniq _ _ h.inv.free)
      · rw [hst]
        refine h.free.attach (dataOf_get hp) ?_
        show b.status ≠ .idle
        rw [hst]
        decide
    eager := by
      show SetFull _ (c.alloc.emplace c.bufs b.status p).memBlocks _ _ _
      rw [hown]
      rcases hst with hst | hst
      · rw [hst]
        refine h.eager.attach (dataOf_get hp) ?_
        show b.status ≠ .eagerFree
        rw [hst]
        decide
      · rw [hst]
        show SetFull _ _ _ (OrdSet.emplace (memBufKey c.bufs) p c.alloc.eagerFreeMemBufs) _
        rw [memBufKey_eq]
        exact h.eager.emplace (huniq _ _ h.inv.eager) }

/-! ## `Free` -/

namespace MemBufAllocator

/-- The status of a free buffer does not matter. -/
theorem swept_tagged (h : Tidy c lay x) (target : MemBufStatus) (hp : c.bufs.get p = some b)
    (hfree : b.status.isFree) (htarget : target.isFree) (B : Nat)
    (hB : B ∈ c.alloc.memBlocks) :
    sweepCells (cells (dataOf (tagged p target c).bufs) (lay B)) =
      sweepCells (cells (dataOf c.bufs) (lay B)) := by
  have hget : ∀ r, r ≠ p → (dataOf (tagged p target c).bufs).get r = (dataOf c.bufs).get r := by
    intro r hr
    rw [dataOf_tagged, Heap.get_modify_ne _ _ hr]
  by_cases hmem : p ∈ lay B
  · obtain ⟨L, R, hlay⟩ := List.append_of_mem hmem
    have hnd := h.inv.nodup B hB
    rw [hlay] at hnd ⊢
    obtain ⟨-, hndR, hLR⟩ := List.nodup_append.mp hnd
    rw [cells_append, cells_append, cells_cons (dataOf_get (tagged_get target hp)),
      cells_cons (dataOf_get hp), cells_congr fun r hr => hget r (hLR r hr p (by simp)),
      cells_congr fun r hr => hget r fun heq => (List.nodup_cons.mp hndR).1 (heq ▸ hr),
      sweepCells_append, sweepCells_append, sweepCells_cons, sweepCells_cons]
    rw [Cell.of_free (d := b.data) hfree,
      Cell.of_free (d := ({ b with status := target } : MemBuf).data) htarget]
    congr 1
    exact pushCell_status _ _ _ _ _
  · rw [cells_congr fun r hr => hget r fun heq => hmem (heq ▸ hr)]

theorem coalesce_tidy (target : MemBufStatus) (h : Tidy c lay (some p))
    (hp : c.bufs.get p = some b) (hB : b.memBlock ∈ c.alloc.memBlocks)
    (hquiet : b.isEventNotUsed = true) (htarget : target.isFree) :
    ∃ lay', Coalesced c lay ((dataOf c.bufs).modify p fun d => { d with status := target })
        (coalesce p target c) lay' ∧
      Tidy (coalesce p target c) lay' none ∧
      (b.status.isFree → ∀ B ∈ c.alloc.memBlocks,
        sweepCells (cells (dataOf (coalesce p target c).bufs) (lay' B)) =
          sweepCells (cells (dataOf c.bufs) (lay B))) := by
  have h₁ : Tidy (tagged p target c) lay (some p) :=
    h.retag (f := fun b => { b with status := target })
      (g := fun d => { d with status := target }) hp (fun _ => rfl) rfl rfl hB fun _ => hquiet
  obtain ⟨lay₂, b₂, ha₂, hleft⟩ := mergePrev_tidy h₁ (tagged_get target hp) hB htarget
  have hB₂ : b₂.memBlock ∈ (mergePrev p target (tagged p target c)).alloc.memBlocks := by
    rw [ha₂.merged.own, ha₂.merged.memBlock]
    exact hB
  have hst₂ : b₂.status = target := ha₂.merged.status
  have hblk₂ : b₂.memBlock = b.memBlock := ha₂.merged.memBlock
  obtain ⟨lay₃, b₃, ha₃, hright, hkept⟩ :=
    mergeNext_tidy ha₂.tidy ha₂.merged.get hB₂ (by rw [hst₂]; exact htarget)
  rw [hst₂] at ha₃ hright hkept
  have ha := ha₂.trans ha₃
  have hst₃ : b₃.status = target := ha.merged.status
  have hblk₃ : b₃.memBlock = b.memBlock := ha.merged.memBlock
  refine ⟨lay₃, ha.merged.coalesced hp hB htarget, ?_, fun hfree B hB' => ?_⟩
  · have halone : Alone (mergeNext p target (mergePrev p target (tagged p target c))) lay₃ p
        b₃ := by
      constructor
      · intro q d hadj hd
        rw [hblk₃, ← hblk₂] at hadj
        obtain ⟨hadj', hd'⟩ := hkept q d hadj hd
        rw [hblk₂] at hadj'
        rw [hst₃]
        exact hleft q d hadj' hd'
      · intro r d hadj hd
        rw [hblk₃, ← hblk₂] at hadj
        rw [hst₃]
        exact hright r d hadj hd
    have hfin := ha.tidy.emplace ha.merged.get
      (by rw [ha.merged.own, ha.merged.memBlock]; exact hB) (by rw [hst₃]; exact htarget) halone
    rw [hst₃] at hfin
    exact hfin
  · exact (ha.swept B hB').trans (swept_tagged h target hp hfree htarget B hB')

end MemBufAllocator

end Ccbase.Memory
