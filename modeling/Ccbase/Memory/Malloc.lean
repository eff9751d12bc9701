import Ccbase.Memory.Churn

/-!
# `Malloc` and the eager free of an allocator

`Malloc` either finds nothing, after steps that concern free buffers only, or
ends by taking one free buffer that is large enough. `FreeIdleMemsByEagerFree`
consists of such steps altogether.
-/

namespace Ccbase.Memory

open Ccbase.Lib Chain Relation

variable {ε : Type}

namespace MemBufAllocator

/-- The outcome of `Malloc`: nothing, or a buffer that was free. -/
structure Malloced (cb : Callbacks ε) (size : Nat) (c : Ctx ε) (lay : Nat → List Nat)
    (r : Option Nat) (c' : Ctx ε) (lay' : Nat → List Nat) : Prop where
  inv : AllocInv c'.bufs c'.blocks c'.alloc lay' none
  ext : Ext c c' lay lay'
  none : r = none → ReflTransGen (Churn cb c.alloc.enableEagerFree) c.core c'.core
  some : ∀ p, r = some p → ∃ m, ReflTransGen (Churn cb c.alloc.enableEagerFree) c.core m ∧
    Take cb size p m c'.core

variable {c c' : Ctx ε} {lay : Nat → List Nat} {p : Nat} {b : MemBuf}

/-! ## The split of a candidate -/

theorem linkBehind_spliced {bufs : Heap MemBuf} (rest : MemBuf) (n : Nat)
    (hp : bufs.get p = some b) (hnp : b.next ≠ some p) (hnq : b.next ≠ some bufs.next)
    (hrest : rest.next = none) :
    Spliced bufs ((linkBehind p b rest bufs).modify p fun x => { x with size := n }) p b rest
      n := by
  have hpq : p ≠ bufs.next := Heap.ne_next hp
  unfold linkBehind
  cases hbn : b.next with
  | none =>
      refine ⟨rfl, ?_, ?_, ?_⟩
      · simp [Heap.get_modify, Heap.get_new, hpq, hp]
      · simp [Heap.get_modify, Heap.get_new, hpq.symm, hrest, hbn]
      · intro r hrp hrq
        simp [Heap.get_modify, Heap.get_new, hrp, hrq, hbn]
  | some nx =>
      have hnp : nx ≠ p := fun heq => hnp (by rw [hbn, heq])
      have hnq : nx ≠ bufs.next := fun heq => hnq (by rw [hbn, heq])
      refine ⟨rfl, ?_, ?_, ?_⟩
      · simp [Heap.get_modify, Heap.get_new, hpq, hp, hnp.symm]
      · simp [Heap.get_modify, Heap.get_new, hpq.symm, hnq.symm, hbn]
      · intro r hrp hrq
        rw [hbn]
        simp only [Heap.get_modify, Heap.get_new, hrp, hrq, if_false, hnq, Heap.modify?_some]
        rfl

theorem dataOf_linkBehind (bufs : Heap MemBuf) (p : Nat) (b rest : MemBuf) :
    dataOf (linkBehind p b rest bufs) = (dataOf bufs).new rest.data := by
  unfold linkBehind
  cases b.next <;> simp [dataOf_new]

/-- Links of a chain do not point to the node itself or to fresh memory. -/
theorem next_ne_of_inv {x : Option Nat} (h : AllocInv c.bufs c.blocks c.alloc lay x)
    (hp : c.bufs.get p = some b) (hB : b.memBlock ∈ c.alloc.memBlocks) :
    b.next ≠ some p ∧ b.next ≠ some c.bufs.next := by
  constructor
  · intro heq
    obtain ⟨L, R, y, hlay, _⟩ := h.right_neighbour hp hB heq
    have hnd := h.nodup _ hB
    rw [hlay] at hnd
    simpa using (List.nodup_append.mp hnd).2.1
  · intro heq
    obtain ⟨L, R, y, _, hy, _⟩ := h.right_neighbour hp hB heq
    exact Heap.ne_next hy rfl

/-- No other buffer of a set has the key of the cut off end. -/
theorem cut_key_ne {rest : BufData} {n : Nat} {st : MemBufStatus} {ps : List Nat}
    (h : AllocInv c.bufs c.blocks c.alloc lay (some p)) (hp : c.bufs.get p = some b)
    (hB : b.memBlock ∈ c.alloc.memBlocks)
    (hs : SetOk (dataOf c.bufs) c.alloc.memBlocks st ps (some p))
    (haddr : rest.addr = b.addr + n) (hsize : n + rest.size = b.size) {r : Nat} (hr : r ∈ ps)
    {e : BufData} (he : (dataOf c.bufs).get r = some e) (hpos : 0 < rest.size) :
    toLex (e.size, e.addr) ≠ toLex (rest.size, rest.addr) := by
  intro hkey
  obtain ⟨hx, e', he', heB, _⟩ := hs.sound r hr
  rw [he] at he'
  cases he'
  have hkey : (e.size, e.addr) = (rest.size, rest.addr) := hkey
  simp only [Prod.mk.injEq] at hkey
  have hbs : b.data.size = b.size := rfl
  have hba : b.data.addr = b.addr := rfl
  refine hx (congrArg some (h.eq_of_overlap (dataOf_get hp) he hB heB (a := rest.addr)
    ⟨?_, ?_⟩ ⟨?_, ?_⟩)) <;> omega

/-- The two sets after the end of the detached `p` has been cut off and put
into the set of its status. -/
theorem SetOk.cut {rest : BufData} {n : Nat} {st : MemBufStatus} {ps : List Nat}
    (h : AllocInv c.bufs c.blocks c.alloc lay (some p)) (hp : c.bufs.get p = some b)
    (hB : b.memBlock ∈ c.alloc.memBlocks)
    (hs : SetOk (dataOf c.bufs) c.alloc.memBlocks st ps (some p))
    (hst : rest.status = st) (hrB : rest.memBlock = b.memBlock)
    (haddr : rest.addr = b.addr + n) (hsize : n + rest.size = b.size) :
    SetOk (((dataOf c.bufs).new rest).modify p fun d => { d with size := n })
      c.alloc.memBlocks st
      (OrdSet.emplace (dataKey ((dataOf c.bufs).new rest)) c.bufs.next ps) (some p) := by
  refine SetOk.modify ?_ _
  refine hs.new_emplace hst (by rw [hrB]; exact hB) ?_ ?_
  · intro heq
    exact Heap.ne_next hp (Option.some.inj heq)
  · exact fun r hr e he hpos => cut_key_ne h hp hB hs haddr hsize hr he hpos

/-- The end of a candidate has become a free buffer of its own. -/
theorem splitMemBuf_spec {size : Nat} (h : AllocInv c.bufs c.blocks c.alloc lay (some p))
    (hp : c.bufs.get p = some b) (hB : b.memBlock ∈ c.alloc.memBlocks)
    (hfree : b.status.isFree) (hsize : size ≤ b.size) :
    ∃ L R, lay b.memBlock = L ++ p :: R ∧
      AllocInv (splitMemBuf p size b c).bufs c.blocks (splitMemBuf p size b c).alloc
        (Function.update lay b.memBlock (L ++ p :: c.bufs.next :: R)) (some p) ∧
      Ext c (splitMemBuf p size b c) lay
        (Function.update lay b.memBlock (L ++ p :: c.bufs.next :: R)) ∧
      (splitMemBuf p size b c).bufs.get p =
        some { b with next := some c.bufs.next, size := size } ∧
      (splitMemBuf p size b c).core = { c.core with
        bufs := ((dataOf c.bufs).new (b.data.rest size)).modify p
          fun x => { x with size := size } } := by
  generalize hrest : remainingBuf b size = rest
  have hrd : rest.data = b.data.rest size := by rw [← hrest]; rfl
  obtain ⟨hnp, hnq⟩ := next_ne_of_inv h hp hB
  have hspl := linkBehind_spliced rest size hp hnp hnq (by rw [← hrest]; rfl)
  have hdata := hspl.data hp
  generalize hal : (if b.status = .idle
    then c.alloc.emplaceFree (linkBehind p b rest c.bufs) c.bufs.next
    else c.alloc.emplaceEagerFree (linkBehind p b rest c.bufs) c.bufs.next) = al'
  generalize hbufs : ((linkBehind p b rest c.bufs).modify p
    fun x => { x with size := size }) = bufs' at hspl hdata
  have hsplit : splitMemBuf p size b c = { c with alloc := al', bufs := bufs' } := by
    rw [← hal, ← hbufs, ← hrest]
    rfl
  have hown : al'.memBlocks = c.alloc.memBlocks := by
    rw [← hal]
    split <;> rfl
  have heager : al'.enableEagerFree = c.alloc.enableEagerFree := by
    rw [← hal]
    split <;> rfl
  have hkeep : ∀ st ps, SetOk (dataOf c.bufs) c.alloc.memBlocks st ps (some p) →
      rest.data.status ≠ st → SetOk (dataOf bufs') c.alloc.memBlocks st ps (some p) := by
    intro st ps hs hne
    rw [hdata]
    exact (hs.new_ne hne).modify _
  have hput : ∀ st ps, SetOk (dataOf c.bufs) c.alloc.memBlocks st ps (some p) →
      rest.data.status = st → SetOk (dataOf bufs') c.alloc.memBlocks st
        (OrdSet.emplace (memBufKey (linkBehind p b rest c.bufs)) c.bufs.next ps)
        (some p) := by
    intro st ps hs hst
    rw [hdata, memBufKey_eq, dataOf_linkBehind]
    refine SetOk.cut h hp hB hs hst ?_ ?_ ?_
    · rw [hrd]; rfl
    · rw [hrd]; rfl
    · rw [hrd]
      show size + (b.size - size) = b.size
      omega
  have hstr : rest.data.status = b.status := by rw [hrd]; rfl
  obtain ⟨hout, L, R, hlay, hinv⟩ := h.cut (some p) hspl hp hB
    (by rw [← hrest]; rfl) hsize (by rw [← hrest]; rfl) (by rw [← hrest]; rfl)
    (by rw [← hrest]; rfl) hown
    (by
      rw [← hal]
      rcases hfree with hst | hst
      · rw [if_pos hst]
        exact hput _ _ h.free (hstr.trans hst)
      · rw [if_neg (by rw [hst]; decide)]
        exact hkeep _ _ h.free (by rw [hstr, hst]; decide))
    (by
      rw [← hal]
      rcases hfree with hst | hst
      · rw [if_pos hst]
        exact hkeep _ _ h.eager (by rw [hstr, hst]; decide)
      · rw [if_neg (by rw [hst]; decide)]
        exact hput _ _ h.eager (hstr.trans hst))
  rw [hsplit]
  refine ⟨L, R, hlay, hinv, ?_, hspl.left, ?_⟩
  · exact
      { own := fun C hC => by
          show C ∈ al'.memBlocks
          rw [hown]
          exact hC
        fresh := fun C hC => .inl (by
          have hC : C ∈ al'.memBlocks := hC
          rwa [hown] at hC)
        outside := by
          show Outside al'.memBlocks c.bufs bufs'
          rw [hown]
          exact hout
        blocksOut := fun _ _ => rfl
        layOut := fun C hC => by
          have hC : C ∉ al'.memBlocks := hC
          rw [hown] at hC
          rw [Function.update_of_ne]
          exact fun heq => hC (heq ▸ hB)
        next := Nat.le_refl _
        eager := heager }
  · unfold Ctx.core
    simp only [hdata, hrd, hown]

/-! ## Taking a candidate -/

/-- Moving the borders of a block does not move the block. -/
theorem map_span_updateBorder (blocks : Heap MemBlock) (B : Nat) (x : MemBuf) :
    (blocks.modify B fun blk => blk.updateBorderAddr x).map MemBlock.span =
      blocks.map MemBlock.span := by
  apply Heap.map_modify_eq
  exact fun _ => rfl

theorem markUsed_spec (h : AllocInv c.bufs c.blocks c.alloc lay (some p))
    (hp : c.bufs.get p = some b) (hB : b.memBlock ∈ c.alloc.memBlocks) :
    AllocInv (markUsed p c).bufs (markUsed p c).blocks (markUsed p c).alloc lay none ∧
      Ext c (markUsed p c) lay lay ∧
      (markUsed p c).core = { c.core with
        bufs := (dataOf c.bufs).modify p fun x => { x with status := .used } } := by
  have hget : (c.bufs.modify p fun x => { x with status := .used }).get p =
      some { b with status := .used } := by
    rw [Heap.get_modify_self, hp]
    rfl
  have hmark : markUsed p c = { c with
      bufs := c.bufs.modify p fun x => { x with status := .used }
      blocks := c.blocks.modify b.memBlock
        fun blk => blk.updateBorderAddr { b with status := .used } } := by
    unfold markUsed
    simp only [hget]
  have hlive : ¬ MemBufStatus.isFree .used := by
    rintro (heq | heq) <;> cases heq
  have hinv := (h.retag (f := fun x => { x with status := .used })
    (g := fun x => { x with status := .used }) hp (fun _ => rfl) rfl rfl hB
    (fun hf => absurd hf hlive)).attach hget hlive
  rw [hmark]
  refine ⟨hinv.blocks_congr (map_span_updateBorder ..), ?_, ?_⟩
  · exact
      { own := fun _ hC => hC
        fresh := fun _ hC => .inl hC
        outside := Outside.modify hp hB hB
        blocksOut := fun C hC => Heap.get_modify_ne _ _ fun heq => hC (heq ▸ hB)
        layOut := fun _ _ => rfl
        next := Nat.le_refl _
        eager := rfl }
  · unfold Ctx.core
    simp only [map_span_updateBorder]
    rw [dataOf_modify (g := fun x => { x with status := .used }) fun _ => rfl]

/-- A candidate has been taken: `D` is memory after the split, if there was
one, and before the candidate got its status. -/
structure Taken (c : Ctx ε) (lay : Nat → List Nat) (p size : Nat) (b : MemBuf)
    (c' : Ctx ε) (lay' : Nat → List Nat) (D : Heap BufData) : Prop where
  inv : AllocInv c'.bufs c'.blocks c'.alloc lay' none
  ext : Ext c c' lay lay'
  cut : D = dataOf c.bufs ∨
    D = ((dataOf c.bufs).new (b.data.rest size)).modify p fun x => { x with size := size }
  get : D.get p = some { b.data with size := mapSize b size }
  core : c'.core = { c.core with bufs := D.modify p fun x => { x with status := .used } }

theorem takeMemBuf_spec {size : Nat} (h : AllocInv c.bufs c.blocks c.alloc lay (some p))
    (hp : c.bufs.get p = some b) (hB : b.memBlock ∈ c.alloc.memBlocks)
    (hfree : b.status.isFree) (hsize : size ≤ b.size) :
    ∃ lay' D, Taken c lay p size b (takeMemBuf p size b c) lay' D := by
  unfold takeMemBuf
  by_cases hcut : kDynamicMemAlignSize ≤ b.size - size
  · rw [if_pos hcut]
    obtain ⟨L, R, hlay, hinv, hext, hget, hcore⟩ := splitMemBuf_spec h hp hB hfree hsize
    have hB₁ : b.memBlock ∈ (splitMemBuf p size b c).alloc.memBlocks := hext.own _ hB
    obtain ⟨hinv₂, hext₂, hcore₂⟩ := markUsed_spec hinv hget hB₁
    have hbufs := congrArg Core.bufs hcore
    refine ⟨_, _, hinv₂, hext.trans hext₂, .inr rfl, ?_, ?_⟩
    · rw [Heap.get_modify_self, Heap.get_new, if_neg (Heap.ne_next (dataOf_get hp)),
        dataOf_get hp]
      simp [mapSize, hcut]
    · rw [hcore₂, hcore]
      show ({ c.core with bufs := (dataOf (splitMemBuf p size b c).bufs).modify p _ } :
        Core ε) = _
      rw [show dataOf (splitMemBuf p size b c).bufs = _ from hbufs]
  · rw [if_neg hcut]
    obtain ⟨hinv₂, hext₂, hcore₂⟩ := markUsed_spec h hp hB
    refine ⟨lay, dataOf c.bufs, hinv₂, hext₂, .inl rfl, ?_, hcore₂⟩
    rw [dataOf_get hp]
    simp [mapSize, hcut, MemBuf.data]

theorem mapSize_le {size : Nat} (hsize : size ≤ b.size) :
    size ≤ mapSize b size ∧ mapSize b size ≤ b.size := by
  unfold mapSize
  split
  · exact ⟨Nat.le_refl _, hsize⟩
  · exact ⟨hsize, Nat.le_refl _⟩

/-- A split on the way to a buffer is a step on free buffers. -/
theorem Taken.path {size : Nat} {lay' : Nat → List Nat} {D : Heap BufData}
    (ht : Taken c lay p size b c' lay' D) (hp : c.bufs.get p = some b)
    (hB : b.memBlock ∈ c.alloc.memBlocks) (hfree : b.status.isFree) (hsize : size ≤ b.size)
    (cb : Callbacks ε) (eager : Bool) (env : ε) :
    ReflTransGen (Churn cb eager) { c.core with env } { c.core with bufs := D, env } := by
  rcases ht.cut with rfl | rfl
  · exact .refl
  · exact .single (.split (m := { c.core with env }) (dataOf_get hp) hB hfree hsize)

theorem mapAndSplitMemBuf_spec {cb : Callbacks ε} {size : Nat} {r : Option Nat}
    (h : AllocInv c.bufs c.blocks c.alloc lay (some p)) (hp : c.bufs.get p = some b)
    (hB : b.memBlock ∈ c.alloc.memBlocks) (hfree : b.status.isFree) (hsize : size ≤ b.size)
    (hres : mapAndSplitMemBuf cb p size c = some (r, c')) :
    ∃ lay', Malloced cb size c lay r c' lay' := by
  simp only [mapAndSplitMemBuf, hp] at hres
  obtain ⟨hle, hle'⟩ := mapSize_le hsize
  by_cases hst : b.status = .eagerFree
  · rw [if_pos hst] at hres
    obtain ⟨⟨n, env⟩, hcb, hres⟩ := Option.bind_eq_some_iff.mp hres
    by_cases hn : n = mapSize b size
    · rw [if_neg (by simpa using hn)] at hres
      cases hres
      subst hn
      obtain ⟨lay', D, ht⟩ := takeMemBuf_spec (c := { c with env }) h hp hB hfree hsize
      have hext : Ext c { c with env } lay lay := Ext.of_eq rfl rfl rfl rfl
      refine ⟨lay', ht.inv, hext.trans ht.ext, fun h => (by cases h), fun q hq => ?_⟩
      cases hq
      refine ⟨{ c.core with bufs := D },
        ht.path hp hB hfree hsize cb c.alloc.enableEagerFree c.env, ?_⟩
      rw [ht.core]
      exact .eager (m := { c.core with bufs := D }) ht.get hB hst hle hcb
    · rw [if_pos (by simpa using hn)] at hres
      cases hres
      have hinv := h.emplace hp hB hfree
      rw [hst] at hinv
      refine ⟨lay, hinv, Ext.of_eq rfl rfl rfl rfl, fun _ => ?_, fun _ h => (by cases h)⟩
      exact .single (.mapFail (m := c.core) (dataOf_get hp) hB hst hle' hcb hn)
  · rw [if_neg hst] at hres
    cases hres
    obtain ⟨lay', D, ht⟩ := takeMemBuf_spec h hp hB hfree hsize
    refine ⟨lay', ht.inv, ht.ext, fun h => (by cases h), fun q hq => ?_⟩
    cases hq
    refine ⟨{ c.core with bufs := D },
      ht.path hp hB hfree hsize cb c.alloc.enableEagerFree c.env, ?_⟩
    rw [ht.core]
    exact .idle (m := { c.core with bufs := D }) ht.get hB (hfree.resolve_right hst) hle

/-! ## `Malloc` -/

/-- What `Malloc` relies on when it asks for a new block: the block overlaps
no block of the allocator, and no buffer claims its identity yet. -/
structure CanExpand (cb : Callbacks ε) (c : Ctx ε) : Prop where
  apart : ∀ size blk env, cb.memBlockExpander size c.env = some (some blk, env) →
    ∀ C ∈ c.alloc.memBlocks, ∀ k, c.blocks.get C = some k → blk.Apart k
  fresh : ∀ r d, (dataOf c.bufs).get r = some d → d.memBlock ≠ c.blocks.next

/-- A path that starts with a step, in front of the rest of `Malloc`. -/
theorem Malloced.cons {cb : Callbacks ε} {size : Nat} {c₁ : Ctx ε} {r : Option Nat}
    {lay₁ lay' : Nat → List Nat} (hm : Malloced cb size c₁ lay₁ r c' lay')
    (hext : Ext c c₁ lay lay₁)
    (hpath : ReflTransGen (Churn cb c.alloc.enableEagerFree) c.core c₁.core) :
    Malloced cb size c lay r c' lay' where
  inv := hm.inv
  ext := hext.trans hm.ext
  none := fun hr => hpath.trans (hext.eager ▸ hm.none hr)
  some := fun p hr => by
    obtain ⟨m, hm, htake⟩ := hm.some p hr
    exact ⟨m, hpath.trans (hext.eager ▸ hm), htake⟩

theorem expand_ext (b : MemBuf) (blk : MemBlock) (env : ε)
    (hb : b.memBlock = c.blocks.next) :
    Ext c
      { alloc := { c.alloc with memBlocks := c.alloc.memBlocks ++ [c.blocks.next] }
        bufs := c.bufs.new b, blocks := c.blocks.new blk, env := env }
      lay (Function.update lay c.blocks.next [c.bufs.next]) where
  own := fun C hC => by simp [hC]
  fresh := fun C hC => by
    rcases List.mem_append.mp hC with hC | hC
    · exact .inl hC
    · exact .inr (Nat.le_of_eq (List.mem_singleton.mp hC).symm)
  outside := fun r y hy => by
    have hyn : y ≠ b := fun heq => hy (by simp [heq, hb])
    rw [Heap.get_new]
    split
    · rename_i hr
      rw [hr, Heap.get_next]
      constructor
      · intro heq
        cases heq
        exact absurd rfl hyn
      · intro heq
        cases heq
    · exact Iff.rfl
  blocksOut := fun C hC => by
    have hCn : C ≠ c.blocks.next := fun heq => hC (by simp [heq])
    rw [Heap.get_new, if_neg hCn]
  layOut := fun C hC => by
    rw [Function.update_of_ne]
    exact fun heq => hC (by simp [heq])
  next := Nat.le_succ _
  eager := rfl

theorem mallocExpandBlock_spec {cb : Callbacks ε} {size : Nat} {r : Option Nat}
    (h : AllocInv c.bufs c.blocks c.alloc lay none) (hcan : CanExpand cb c)
    (hres : mallocExpandBlock cb size c = some (r, c')) :
    ∃ lay', Malloced cb size c lay r c' lay' := by
  unfold mallocExpandBlock expandBlock at hres
  obtain ⟨⟨B, c₁⟩, hexp, hres⟩ := Option.bind_eq_some_iff.mp hres
  obtain ⟨⟨blk?, env⟩, hcb, hexp⟩ := Option.bind_eq_some_iff.mp hexp
  cases blk? with
  | none =>
      cases hexp
      cases hres
      exact ⟨lay, h, Ext.of_eq rfl rfl rfl rfl,
        fun _ => .single (.expandFail (m := c.core) hcb), fun _ h => (by cases h)⟩
  | some blk =>
      cases hexp
      simp only [Heap.get_new_self] at hres
      generalize hb : blockBuf blk c.blocks.next c.alloc.enableEagerFree = b at hres
      have hdata : b.data = .ofBlock blk c.blocks.next c.alloc.enableEagerFree := by
        rw [← hb]
        rfl
      have hfree : b.status.isFree := by
        rw [← hb]
        unfold blockBuf
        dsimp only
        split
        · exact .inr rfl
        · exact .inl rfl
      -- the one buffer of the new block is the candidate
      have hinv := h.expand (b := b) blk (hcan.apart size blk env hcb) hcan.fresh
        (by rw [← hb]; rfl) (by rw [← hb]; rfl) (by rw [← hb]; rfl) (by rw [← hb]; rfl)
        (by rw [← hb]; rfl) (by rw [← hb]; rfl)
      generalize hc₁ : (Ctx.mk { c.alloc with memBlocks := c.alloc.memBlocks ++ [c.blocks.next] }
        (c.bufs.new b) (c.blocks.new blk) env : Ctx ε) = c₁
      have hinv₁ : AllocInv c₁.bufs c₁.blocks c₁.alloc
          (Function.update lay c.blocks.next [c.bufs.next]) (some c.bufs.next) := by
        rw [← hc₁]
        exact hinv
      have hget : c₁.bufs.get c.bufs.next = some b := by
        rw [← hc₁]
        exact Heap.get_new_self _ _
      have hB : b.memBlock ∈ c₁.alloc.memBlocks := by
        rw [← hc₁, ← hb]
        simp [blockBuf]
      have hext : Ext c c₁ lay (Function.update lay c.blocks.next [c.bufs.next]) := by
        rw [← hc₁]
        exact expand_ext b blk env (by rw [← hb]; rfl)
      have hcore : c₁.core =
          { bufs := c.core.bufs.new (.ofBlock blk c.core.blocks.next c.alloc.enableEagerFree)
            blocks := c.core.blocks.new blk.span
            own := fun B => c.core.own B ∨ B = c.core.blocks.next
            env := env } := by
        rw [← hc₁]
        unfold Ctx.core
        simp only [dataOf_new, hdata, Heap.map_new, List.mem_append, List.mem_singleton,
          Heap.next_map]
      have hpath : ReflTransGen (Churn cb c.alloc.enableEagerFree) c.core c₁.core := by
        rw [hcore]
        exact .single (.expand hcb)
      -- the block is too small: the buffer goes into its set, and the call fails
      by_cases hsize : b.size < size
      · rw [if_pos hsize] at hres
        obtain ⟨rfl, hc'⟩ := Prod.mk.inj (Option.some.inj hres)
        have hc' : c' = { c₁ with
            alloc := c₁.alloc.emplace c₁.bufs b.status c.bufs.next } := by
          rw [← hc', ← hc₁]
          rcases hfree with hst | hst <;> rw [hst] <;> rfl
        have hfin := hinv₁.emplace hget hB hfree
        rw [hc']
        refine ⟨_, hfin, hext.trans (Ext.of_eq ?_ rfl rfl ?_), fun _ => ?_, fun _ h => (by cases h)⟩
        · exact emplace_memBlocks ..
        · exact emplace_enableEagerFree ..
        · have : ({ c₁ with alloc := c₁.alloc.emplace c₁.bufs b.status c.bufs.next } :
              Ctx ε).core = c₁.core := by
            unfold Ctx.core
            simp only [emplace_memBlocks]
          rw [this]
          exact hpath
      · rw [if_neg hsize] at hres
        have hres : mapAndSplitMemBuf cb c.bufs.next size c₁ = some (r, c') := by
          rw [← hc₁]
          exact hres
        obtain ⟨lay', hm⟩ := mapAndSplitMemBuf_spec hinv₁ hget hB hfree (by omega) hres
        exact ⟨lay', hm.cons hext hpath⟩

/-- What `lower_bound` finds in a set is a buffer of the set that fits. -/
theorem lowerBound_fits {st : MemBufStatus} {ps : List Nat} {size : Nat}
    (hs : SetOk (dataOf c.bufs) c.alloc.memBlocks st ps none)
    (hp : OrdSet.lowerBound (memBufKey c.bufs) (toLex (size, 0)) ps = some p) :
    ∃ b, c.bufs.get p = some b ∧ b.memBlock ∈ c.alloc.memBlocks ∧ b.status = st ∧
      size ≤ b.size := by
  obtain ⟨hmem, hle⟩ := OrdSet.lowerBound_some hp
  obtain ⟨_, d, hd, hB, hst⟩ := hs.sound p hmem
  obtain ⟨b, hb, rfl⟩ := dataOf_get_some hd
  rw [memBufKey_eq, dataKey_of_get hd, Prod.Lex.toLex_le_toLex] at hle
  refine ⟨b, hb, hB, hst, ?_⟩
  rcases hle with hlt | ⟨heq, _⟩
  · exact Nat.le_of_lt hlt
  · exact Nat.le_of_eq heq

theorem malloc_spec {cb : Callbacks ε} {size : Nat} {r : Option Nat}
    (h : AllocInv c.bufs c.blocks c.alloc lay none) (hcan : CanExpand cb c)
    (hres : malloc cb size c = some (r, c')) : ∃ lay', Malloced cb size c lay r c' lay' := by
  unfold malloc at hres
  split at hres
  · exact mallocExpandBlock_spec h hcan hres
  · split at hres
    · rename_i p hp
      obtain ⟨b, hb, hB, hst, hsize⟩ := lowerBound_fits h.free hp
      obtain ⟨lay', hm⟩ := mapAndSplitMemBuf_spec
        (c := { c with alloc := { c.alloc with freeMemBufs := c.alloc.freeMemBufs.erase p } })
        (h.eraseFree hb hst) hb hB (.inl hst) hsize hres
      exact ⟨lay', hm.cons (Ext.of_eq rfl rfl rfl rfl) .refl⟩
    · split at hres
      · rename_i p hp
        obtain ⟨b, hb, hB, hst, hsize⟩ := lowerBound_fits h.eager hp
        obtain ⟨lay', hm⟩ := mapAndSplitMemBuf_spec
          (c := { c with alloc := { c.alloc with
            eagerFreeMemBufs := c.alloc.eagerFreeMemBufs.erase p } })
          (h.eraseEagerFree hb hst) hb hB (.inr hst) hsize hres
        exact ⟨lay', hm.cons (Ext.of_eq rfl rfl rfl rfl) .refl⟩
      · cases hres
        exact ⟨lay, h, Ext.of_eq rfl rfl rfl rfl, fun _ => .refl, fun _ h => (by cases h)⟩

/-! ## The eager free -/

/-- The same allocator with another set of idle buffers. -/
def withFree (ps : List Nat) (c : Ctx ε) : Ctx ε :=
  { c with alloc := { c.alloc with freeMemBufs := ps } }

/-! `Free` with the eager target neither reads nor writes the idle set. -/

theorem mergePrev_withFree (p : Nat) (ps : List Nat) (c : Ctx ε) :
    mergePrev p .eagerFree (withFree ps c) = withFree ps (mergePrev p .eagerFree c) := by
  unfold mergePrev
  dsimp only [withFree]
  repeat' split
  all_goals rfl

theorem mergeNext_withFree (p : Nat) (ps : List Nat) (c : Ctx ε) :
    mergeNext p .eagerFree (withFree ps c) = withFree ps (mergeNext p .eagerFree c) := by
  unfold mergeNext
  dsimp only [withFree]
  repeat' split
  all_goals rfl

theorem tagged_withFree (p : Nat) (ps : List Nat) (c : Ctx ε) :
    tagged p .eagerFree (withFree ps c) = withFree ps (tagged p .eagerFree c) := rfl

theorem coalesce_withFree (p : Nat) (ps : List Nat) (c : Ctx ε) :
    coalesce p .eagerFree (withFree ps c) = withFree ps (coalesce p .eagerFree c) := by
  rw [coalesce_eq, coalesce_eq, tagged_withFree, mergePrev_withFree, mergeNext_withFree]
  rfl

/-- The walk over the idle buffers, of which `ps` are left. -/
theorem eagerFreeAll_spec (cb : Callbacks ε) {ps : List Nat} {total total' : Nat}
    (h : AllocInv c.bufs c.blocks { c.alloc with freeMemBufs := ps } lay none)
    (hres : eagerFreeAll ps total c = (total', c')) (htotal : total < sizeBound) :
    ∃ lay' n, AllocInv c'.bufs c'.blocks { c'.alloc with freeMemBufs := [] } lay' none ∧
      Ext c c' lay lay' ∧ Sweeps cb c.core n c'.core ∧ c'.env = c.env ∧
      total' = (total + n) % sizeBound := by
  induction ps generalizing c lay total with
  | nil =>
      cases hres
      exact ⟨lay, 0, h, Ext.of_eq rfl rfl rfl rfl, .refl, rfl,
        (Nat.mod_eq_of_lt htotal).symm⟩
  | cons p ps ih =>
      obtain ⟨_, d, hd, hB, hst⟩ := h.free.sound p (by simp)
      obtain ⟨b, hb, rfl⟩ := dataOf_get_some hd
      have hst : b.status = .idle := hst
      have hB : b.memBlock ∈ c.alloc.memBlocks := hB
      have hquiet : b.isEventNotUsed = true := h.quiet p _ hd hB (.inl hst)
      -- the buffer leaves the idle set here, the code clears the set at the end
      have hdet := h.eraseFree hb hst
      simp only [List.erase_cons_head] at hdet
      obtain ⟨lay₁, hco⟩ := coalesce_spec (c := withFree ps c) .eagerFree hdet hb hB
        hquiet (.inr rfl)
      rw [coalesce_withFree] at hco
      have hfree : (free p .eagerFree c).2 = coalesce p .eagerFree c := by
        unfold free
        simp only [hb, hquiet, Bool.not_true, Bool.false_eq_true, if_false]
      have hcore : (withFree ps (coalesce p .eagerFree c)).core =
          { c.core with bufs := dataOf (coalesce p .eagerFree c).bufs } := by
        have h1 := hco.own
        have h2 := hco.blocks
        have h3 := hco.env
        simp only [withFree] at h1 h2 h3
        simp only [withFree, Ctx.core, h1, h2, h3]
      simp only [eagerFreeAll, hb, Option.map_some, Option.getD_some, hfree] at hres
      obtain ⟨lay', n, hinv, hext, hsw, henv, htot⟩ :=
        ih (c := coalesce p .eagerFree c) hco.inv hres (addSize_lt _ _)
      refine ⟨lay', b.size + n, hinv, ?_, ?_, henv.trans hco.env, ?_⟩
      · have he := hco.ext
        have he : Ext c (coalesce p .eagerFree c) lay lay₁ :=
          ⟨he.own, he.fresh, he.outside, he.blocksOut, he.layOut, he.next, he.eager⟩
        exact he.trans hext
      · have hconv : Sweeps cb c.core (0 + b.data.size) _ :=
          Sweeps.refl.convert (dataOf_get hb) hB hst
        rw [Nat.zero_add] at hconv
        have hm : Sweeps cb c.core b.size (coalesce p .eagerFree c).core := by
          rw [show (coalesce p .eagerFree c).core = _ from hcore]
          exact hconv.merges hco.merges
        exact hm.trans hsw
      · rw [htot, addSize, Nat.mod_add_mod, Nat.add_assoc]

/-- The walk over the eagerly free buffers talks to the device only. -/
theorem memEagerFreeAll_spec {cb : Callbacks ε} {ps : List Nat} {total total' : Nat}
    (hs : ∀ p ∈ ps, ∃ d, (dataOf c.bufs).get p = some d ∧ d.memBlock ∈ c.alloc.memBlocks ∧
      d.status = .eagerFree)
    (hres : memEagerFreeAll cb ps total c = some (total', c')) :
    (∃ env, c' = { c with env := env }) ∧ Sweeps cb c.core 0 c'.core := by
  induction ps generalizing c total with
  | nil =>
      obtain ⟨_, rfl⟩ := Prod.mk.inj (Option.some.inj hres)
      exact ⟨⟨c.env, rfl⟩, .refl⟩
  | cons p ps ih =>
      obtain ⟨d, hd, hB, hst⟩ := hs p (by simp)
      obtain ⟨b, hb, rfl⟩ := dataOf_get_some hd
      simp only [memEagerFreeAll, hb] at hres
      obtain ⟨⟨n, env₁⟩, hcb, hres⟩ := Option.bind_eq_some_iff.mp hres
      obtain ⟨⟨env, rfl⟩, hsw⟩ := ih (c := { c with env := env₁ })
        (fun q hq => hs q (by simp [hq])) hres
      refine ⟨⟨env, rfl⟩, ?_⟩
      have hfirst : Sweeps cb c.core 0 ({ c with env := env₁ } : Ctx ε).core :=
        Sweeps.refl.unmap (dataOf_get hb) hB hst hcb
      exact hfirst.trans hsw

theorem freeIdleMemsByEagerFree_spec {cb : Callbacks ε} {sizes : Nat × Nat}
    (h : AllocInv c.bufs c.blocks c.alloc lay none)
    (hres : freeIdleMemsByEagerFree cb c = some (sizes, c')) :
    ∃ lay' n, AllocInv c'.bufs c'.blocks c'.alloc lay' none ∧ Ext c c' lay lay' ∧
      Sweeps cb c.core n c'.core ∧ sizes.1 = n % sizeBound := by
  unfold freeIdleMemsByEagerFree at hres
  generalize hwalk : eagerFreeAll c.alloc.freeMemBufs 0 c = walk at hres
  obtain ⟨total, c₁⟩ := walk
  obtain ⟨lay', n, hinv, hext, hsw, _, htot⟩ :=
    eagerFreeAll_spec cb h hwalk (by decide)
  obtain ⟨⟨real, c₂⟩, hdev, hres⟩ := Option.bind_eq_some_iff.mp hres
  cases hres
  obtain ⟨⟨env, rfl⟩, hsw'⟩ := memEagerFreeAll_spec
    (c := { c₁ with alloc := { c₁.alloc with freeMemBufs := [] } })
    (fun p hp => (hinv.eager.sound p hp).2) hdev
  refine ⟨lay', n, hinv, ?_, hsw.trans hsw', by rw [htot, Nat.zero_add]⟩
  exact hext.trans (Ext.of_eq rfl rfl rfl rfl)

end MemBufAllocator

end Ccbase.Memory
