import Ccbase.Memory.Tidy

/-!
# `Malloc` keeps the chains tidy

A candidate has no twin next to it. Its end, cut off with the same status, comes to lie
next to the right neighbour of the candidate, so it has none either; the candidate itself
is in use afterwards.
-/

namespace Ccbase.Memory

open Ccbase.Lib Chain

variable {ε : Type} {c c' : Ctx ε} {lay : Nat → List Nat} {p : Nat} {b : MemBuf}

/-- The environment of the callbacks is not the business of the chains. -/
theorem Tidy.env {x : Option Nat} (h : Tidy c lay x) (env : ε) : Tidy { c with env } lay x :=
  ⟨h.inv, h.spaced, h.zero, h.twins, h.free, h.eager⟩

/-! ## Blocks -/

theorem span_eq {blocks blocks' : Heap MemBlock}
    (hspan : blocks'.map MemBlock.span = blocks.map MemBlock.span) {B : Nat} {blk : MemBlock}
    (hblk : blocks'.get B = some blk) :
    ∃ k, blocks.get B = some k ∧ k.addr = blk.addr := by
  have heq := congrArg (fun H : Heap (Nat × Nat) => H.get B) hspan
  dsimp only [Heap.get_map] at heq
  rw [hblk] at heq
  obtain ⟨k, hk, hkb⟩ := Option.map_eq_some_iff.mp heq.symm
  exact ⟨k, hk, congrArg Prod.fst hkb⟩

/-- The borders of a block may move. -/
theorem Spaced.congr {blocks blocks' : Heap MemBlock} {own : List Nat} (h : Spaced blocks own)
    (hspan : blocks'.map MemBlock.span = blocks.map MemBlock.span) : Spaced blocks' own := by
  intro B hB C hC hne blk k hblk hk heq
  obtain ⟨blk', hblk', ha⟩ := span_eq hspan hblk
  obtain ⟨k', hk', ha'⟩ := span_eq hspan hk
  exact h B hB C hC hne blk' k' hblk' hk' (by omega)

theorem SetFull.own_append {D : Heap BufData} {own : List Nat} {st : MemBufStatus}
    {ps : List Nat} {x : Option Nat} {B : Nat} (h : SetFull D own st ps x)
    (hB : ∀ r d, D.get r = some d → d.memBlock ≠ B) : SetFull D (own ++ [B]) st ps x := by
  intro r d hd hdB hst hx
  rcases List.mem_append.mp hdB with hm | hm
  · exact h r d hd hm hst hx
  · exact absurd (List.mem_singleton.mp hm) (hB r d hd)

theorem Spaced.new {blocks : Heap MemBlock} {own : List Nat} (h : Spaced blocks own)
    (hold : ∀ C ∈ own, C ≠ blocks.next) {blk : MemBlock}
    (hbase : ∀ C ∈ own, ∀ k, blocks.get C = some k → blk.addr ≠ k.addr) :
    Spaced (blocks.new blk) (own ++ [blocks.next]) := by
  have hcases : ∀ C, C ∈ own ++ [blocks.next] → ∀ k, (blocks.new blk).get C = some k →
      (C ∈ own ∧ C ≠ blocks.next ∧ blocks.get C = some k) ∨ (C = blocks.next ∧ k = blk) := by
    intro C hC k hk
    rcases List.mem_append.mp hC with hC | hC
    · rw [Heap.get_new, if_neg (hold C hC)] at hk
      exact .inl ⟨hC, hold C hC, hk⟩
    · rw [List.mem_singleton.mp hC, Heap.get_new_self] at hk
      exact .inr ⟨List.mem_singleton.mp hC, (Option.some.inj hk).symm⟩
  intro B hB C hC hne k k' hk hk'
  rcases hcases B hB k hk with ⟨hB₀, -, hk₀⟩ | ⟨rfl, rfl⟩
  · rcases hcases C hC k' hk' with ⟨hC₀, -, hk₀'⟩ | ⟨rfl, rfl⟩
    · exact h B hB₀ C hC₀ hne k k' hk₀ hk₀'
    · exact (hbase B hB₀ k hk₀).symm
  · rcases hcases C hC k' hk' with ⟨hC₀, -, hk₀'⟩ | ⟨rfl, rfl⟩
    · exact hbase C hC₀ k' hk₀'
    · exact absurd rfl hne

/-! ## The candidate leaves its set -/

theorem Tidy.eraseFree (h : Tidy c lay none) (hp : c.bufs.get p = some b)
    (hst : b.status = .idle) :
    Tidy { c with alloc := { c.alloc with freeMemBufs := c.alloc.freeMemBufs.erase p } } lay
      (some p) :=
  { inv := h.inv.eraseFree hp hst
    spaced := h.spaced
    zero := h.zero
    twins := fun B hB q r d e hadj hd he _ _ =>
      h.twins B hB q r d e hadj hd he (by simp) (by simp)
    free := h.free.erase_mem h.inv.free.sorted.nodup
    eager := h.eager.detach }

theorem Tidy.eraseEagerFree (h : Tidy c lay none) (hp : c.bufs.get p = some b)
    (hst : b.status = .eagerFree) :
    Tidy { c with alloc := { c.alloc with
      eagerFreeMemBufs := c.alloc.eagerFreeMemBufs.erase p } } lay (some p) :=
  { inv := h.inv.eraseEagerFree hp hst
    spaced := h.spaced
    zero := h.zero
    twins := fun B hB q r d e hadj hd he _ _ =>
      h.twins B hB q r d e hadj hd he (by simp) (by simp)
    free := h.free.detach
    eager := h.eager.erase_mem h.inv.eager.sorted.nodup }

/-! ## The split -/

section Split

open MemBufAllocator

variable {size : Nat} {L R : List Nat}

/-- The buffers when the rest of `p` behind `size` bytes has been cut off. -/
def cutOff (c : Ctx ε) (p size : Nat) (b : MemBuf) : Heap BufData :=
  ((dataOf c.bufs).new (b.data.rest size)).modify p fun x => { x with size := size }

theorem cutOff_rest (hp : c.bufs.get p = some b) :
    (cutOff c p size b).get c.bufs.next = some (b.data.rest size) := by
  rw [cutOff, Heap.get_modify_ne _ _ (Heap.ne_next hp).symm]
  exact Heap.get_new_self _ _

theorem cutOff_self (hp : c.bufs.get p = some b) :
    (cutOff c p size b).get p = some { b.data with size := size } := by
  rw [cutOff, Heap.get_modify_self, Heap.get_new, dataOf_next, if_neg (Heap.ne_next hp),
    dataOf_get hp, Option.map_some]

theorem cutOff_others {r : Nat} (hrp : r ≠ p) (hrn : r ≠ c.bufs.next) :
    (cutOff c p size b).get r = (dataOf c.bufs).get r := by
  rw [cutOff, Heap.get_modify_ne _ _ hrp, Heap.get_new, dataOf_next, if_neg hrn]

theorem Tidy.ne_next (h : Tidy c lay (some p)) {B r : Nat} (hB : B ∈ c.alloc.memBlocks)
    (hr : r ∈ lay B) : r ≠ c.bufs.next := by
  obtain ⟨y, hy, -⟩ := h.inv.memBlock_of_mem hB hr
  exact Heap.ne_next hy

/-- The rest is not empty, and what is left is only if it starts its block. -/
theorem Tidy.cutOff_zero (h : Tidy c lay (some p)) (hp : c.bufs.get p = some b)
    (hlay : lay b.memBlock = L ++ p :: R) (hcut : size < b.size)
    (hfirst : size = 0 → p ∉ (lay b.memBlock).tail) :
    ∀ B ∈ c.alloc.memBlocks,
      ∀ r ∈ (Function.update lay b.memBlock (L ++ p :: c.bufs.next :: R) B).tail,
      ∀ d, (cutOff c p size b).get r = some d → 0 < d.size := by
  intro B hB r hr d hd
  by_cases hrn : r = c.bufs.next
  · subst hrn
    rw [cutOff_rest hp] at hd
    cases hd
    exact Nat.sub_pos_of_lt hcut
  · -- the other buffers were there before, in the same places
    have hr' : r ∈ (lay B).tail := by
      by_cases hBB : B = b.memBlock
      · subst hBB
        rw [Function.update_self] at hr
        rw [hlay]
        cases L with
        | nil =>
            rcases List.mem_cons.mp hr with heq | hr
            · exact absurd heq hrn
            · exact hr
        | cons l L =>
            simp only [List.cons_append, List.tail_cons, List.mem_append, List.mem_cons]
              at hr ⊢
            tauto
      · rwa [Function.update_of_ne hBB] at hr
    by_cases hrp : r = p
    · subst hrp
      rw [cutOff_self hp] at hd
      cases hd
      obtain ⟨y, hy, hyB⟩ := h.inv.memBlock_of_mem hB (List.mem_of_mem_tail hr')
      rw [hp] at hy
      cases hy
      rw [← hyB] at hr'
      exact Nat.pos_of_ne_zero fun h0 => hfirst h0 hr'
    · exact h.zero B hB r hr' d (cutOff_others hrp hrn ▸ hd)

/-- The rest has no twin on its right, since `p` had none. -/
theorem Tidy.cutOff_twins (h : Tidy c lay (some p)) (hp : c.bufs.get p = some b)
    (halone : Alone c lay p b) (hlay : lay b.memBlock = L ++ p :: R) :
    ∀ B ∈ c.alloc.memBlocks, ∀ q r d e,
      Adj (Function.update lay b.memBlock (L ++ p :: c.bufs.next :: R) B) q r →
      (cutOff c p size b).get q = some d → (cutOff c p size b).get r = some e →
      some p ≠ some q → some p ≠ some r → ¬ Twins d e := by
  intro B hB q r d e hadj hd he hq hr htw
  have hqp : q ≠ p := fun heq => hq (by rw [heq])
  have hrp : r ≠ p := fun heq => hr (by rw [heq])
  -- neighbours that were neighbours before
  have hbefore : Adj (lay B) q r → False := by
    intro hadj'
    have hqn := h.ne_next hB hadj'.mem.1
    have hrn := h.ne_next hB hadj'.mem.2
    exact h.twins B hB q r d e hadj' (cutOff_others hqp hqn ▸ hd) (cutOff_others hrp hrn ▸ he) hq
      hr htw
  by_cases hBB : B = b.memBlock
  · subst hBB
    rw [Function.update_self, adj_append_cons, adj_cons] at hadj
    rcases hadj with hadj | ⟨-, heq⟩ | ⟨heq, -⟩ | ⟨rfl, hhead⟩ | hadj
    · refine hbefore ?_
      rw [hlay, adj_append_cons]
      exact .inl hadj
    · exact hrp heq
    · exact hqp heq
    · have hadj' : Adj (lay b.memBlock) p r := by
        rw [hlay, adj_append_cons]
        exact .inr (.inr (.inl ⟨rfl, hhead⟩))
      rw [cutOff_rest hp] at hd
      cases hd
      have hrn := h.ne_next hB hadj'.mem.2
      exact halone.right r e hadj' (cutOff_others hrp hrn ▸ he) htw.1.symm
    · refine hbefore ?_
      rw [hlay, adj_append_cons]
      exact .inr (.inr (.inr hadj))
  · rw [Function.update_of_ne hBB] at hadj
    exact hbefore hadj

/-- The set of the rest's status gets it. -/
theorem Tidy.cutOff_put (h : Tidy c lay (some p)) (hp : c.bufs.get p = some b)
    (hB : b.memBlock ∈ c.alloc.memBlocks) (hcut : size < b.size) {st : MemBufStatus}
    {ps : List Nat} (hs : SetFull (dataOf c.bufs) c.alloc.memBlocks st ps (some p))
    (hok : SetOk (dataOf c.bufs) c.alloc.memBlocks st ps (some p)) :
    SetFull (cutOff c p size b) c.alloc.memBlocks st
      (OrdSet.emplace (memBufKey (linkBehind p b (remainingBuf b size) c.bufs)) c.bufs.next
        ps) (some p) := by
  rw [memBufKey_eq, dataOf_linkBehind]
  refine SetFull.modify (hs.new_emplace (d := b.data.rest size) fun y hy => ?_) _
  obtain ⟨-, e, he, -⟩ := hok.sound y hy
  have he' : ((dataOf c.bufs).new (b.data.rest size)).get y = some e := by
    rw [Heap.get_new, if_neg (Heap.ne_next he), he]
  rw [dataKey_of_get he', dataKey_of_get (Heap.get_new_self _ _)]
  refine cut_key_ne h.inv hp hB hok (n := size) rfl ?_ hy he ?_
  · exact Nat.add_sub_cancel' hcut.le
  · exact Nat.sub_pos_of_lt hcut

/-- The other set stays. -/
theorem cutOff_keep {st : MemBufStatus} {ps : List Nat}
    (hs : SetFull (dataOf c.bufs) c.alloc.memBlocks st ps (some p)) (hne : b.status ≠ st) :
    SetFull (cutOff c p size b) c.alloc.memBlocks st ps (some p) :=
  (hs.new_ne (d := b.data.rest size) hne).modify _

end Split

namespace MemBufAllocator

theorem splitMemBuf_tidy {size : Nat} (h : Tidy c lay (some p)) (hp : c.bufs.get p = some b)
    (hB : b.memBlock ∈ c.alloc.memBlocks) (hfree : b.status.isFree) (halone : Alone c lay p b)
    (hcut : kDynamicMemAlignSize ≤ b.size - size)
    (hfirst : size = 0 → p ∉ (lay b.memBlock).tail) :
    ∃ lay', Ext c (splitMemBuf p size b c) lay lay' ∧
      (splitMemBuf p size b c).bufs.get p =
        some { b with next := some c.bufs.next, size := size } ∧
      Tidy (splitMemBuf p size b c) lay' (some p) := by
  have hpos : 0 < kDynamicMemAlignSize := by decide
  have hlt : size < b.size := by omega
  obtain ⟨L, R, hlay, hinv, hext, hget, hcore⟩ := splitMemBuf_spec h.inv hp hB hfree hlt.le
  have hdata : dataOf (splitMemBuf p size b c).bufs = cutOff c p size b :=
    congrArg Core.bufs hcore
  have hown : (splitMemBuf p size b c).alloc.memBlocks = c.alloc.memBlocks := by
    unfold splitMemBuf
    dsimp only
    split <;> rfl
  refine ⟨_, hext, hget, ?_⟩
  exact {
    inv := hinv
    spaced := by
      show Spaced c.blocks (splitMemBuf p size b c).alloc.memBlocks
      rw [hown]
      exact h.spaced
    zero := by
      rw [hown, hdata]
      exact h.cutOff_zero hp hlay hlt hfirst
    twins := by
      rw [hown, hdata]
      exact h.cutOff_twins hp halone hlay
    free := by
      rw [hown, hdata]
      unfold splitMemBuf
      dsimp only
      rcases hfree with hst | hst
      · rw [if_pos hst]
        exact h.cutOff_put hp hB hlt h.free h.inv.free
      · rw [if_neg (by rw [hst]; decide)]
        exact cutOff_keep h.free (by rw [hst]; decide)
    eager := by
      rw [hown, hdata]
      unfold splitMemBuf
      dsimp only
      rcases hfree with hst | hst
      · rw [if_pos hst]
        exact cutOff_keep h.eager (by rw [hst]; decide)
      · rw [if_neg (by rw [hst]; decide)]
        exact h.cutOff_put hp hB hlt h.eager h.inv.eager }

/-! ## The candidate is taken -/

theorem not_isFree_used : ¬ MemBufStatus.isFree .used := by
  rintro (heq | heq)
  · cases heq
  · cases heq

theorem markUsed_tidy (h : Tidy c lay (some p)) (hp : c.bufs.get p = some b)
    (hB : b.memBlock ∈ c.alloc.memBlocks) :
    Ext c (markUsed p c) lay lay ∧ Tidy (markUsed p c) lay none := by
  obtain ⟨hinv, hext, hcore⟩ := markUsed_spec h.inv hp hB
  have h₁ : Tidy (tagged p .used c) lay none :=
    (h.retag (f := fun x => { x with status := .used })
      (g := fun x => { x with status := .used }) hp (fun _ => rfl) rfl rfl hB
      fun hf => absurd hf not_isFree_used).attach (tagged_get .used hp) not_isFree_used
  have hspan : (markUsed p c).blocks.map MemBlock.span = c.blocks.map MemBlock.span :=
    congrArg Core.blocks hcore
  exact ⟨hext, ⟨hinv, Spaced.congr h₁.spaced hspan, h₁.zero, h₁.twins, h₁.free, h₁.eager⟩⟩

theorem takeMemBuf_tidy {size : Nat} (h : Tidy c lay (some p)) (hp : c.bufs.get p = some b)
    (hB : b.memBlock ∈ c.alloc.memBlocks) (hfree : b.status.isFree) (halone : Alone c lay p b)
    (hfirst : size = 0 → p ∉ (lay b.memBlock).tail) :
    ∃ lay', Ext c (takeMemBuf p size b c) lay lay' ∧ Tidy (takeMemBuf p size b c) lay' none := by
  unfold takeMemBuf
  by_cases hcut : kDynamicMemAlignSize ≤ b.size - size
  · rw [if_pos hcut]
    obtain ⟨lay₁, hext, hget, htidy⟩ := splitMemBuf_tidy h hp hB hfree halone hcut hfirst
    obtain ⟨hext₂, htidy₂⟩ := markUsed_tidy htidy hget (hext.own _ hB)
    exact ⟨lay₁, hext.trans hext₂, htidy₂⟩
  · rw [if_neg hcut]
    obtain ⟨hext, htidy⟩ := markUsed_tidy h hp hB
    exact ⟨lay, hext, htidy⟩

theorem mapAndSplitMemBuf_tidy {cb : Callbacks ε} {size : Nat} {r : Option Nat}
    (h : Tidy c lay (some p)) (hp : c.bufs.get p = some b)
    (hB : b.memBlock ∈ c.alloc.memBlocks) (hfree : b.status.isFree) (halone : Alone c lay p b)
    (hfirst : size = 0 → p ∉ (lay b.memBlock).tail)
    (hres : mapAndSplitMemBuf cb p size c = some (r, c')) :
    ∃ lay', Ext c c' lay lay' ∧ Tidy c' lay' none := by
  simp only [mapAndSplitMemBuf, hp] at hres
  by_cases hst : b.status = .eagerFree
  · rw [if_pos hst] at hres
    obtain ⟨⟨n, env⟩, hcb, hres⟩ := Option.bind_eq_some_iff.mp hres
    have hext : Ext c { c with env } lay lay := Ext.of_eq rfl rfl rfl rfl
    have halone' : Alone { c with env } lay p b := ⟨halone.left, halone.right⟩
    by_cases hn : n = mapSize b size
    · rw [if_neg (by simpa using hn)] at hres
      cases hres
      obtain ⟨lay', hext', htidy⟩ := takeMemBuf_tidy (h.env env) hp hB hfree halone' hfirst
      exact ⟨lay', hext.trans hext', htidy⟩
    · rw [if_pos (by simpa using hn)] at hres
      cases hres
      have htidy := (h.env env).emplace hp hB hfree halone'
      rw [hst] at htidy
      exact ⟨lay, Ext.of_eq rfl rfl rfl rfl, htidy⟩
  · rw [if_neg hst] at hres
    cases hres
    exact takeMemBuf_tidy h hp hB hfree halone hfirst

/-! ## A new block -/

/-- What `Malloc` relies on when it asks for a new block: besides what it takes for
`AllocInv`, the block starts at an address of its own. -/
structure Expandable (cb : Callbacks ε) (c : Ctx ε) : Prop where
  can : CanExpand cb c
  base : ∀ size blk env, cb.memBlockExpander size c.env = some (some blk, env) →
    ∀ C ∈ c.alloc.memBlocks, ∀ k, c.blocks.get C = some k → blk.addr ≠ k.addr

/-- A block comes with one buffer that covers it, not attached yet. -/
theorem expand_tidy (h : Tidy c lay none) {cb : Callbacks ε} {size : Nat} {blk : MemBlock}
    {env : ε} (hexp : Expandable cb c)
    (hcb : cb.memBlockExpander size c.env = some (some blk, env)) (haddr : b.addr = blk.addr)
    (hsize : b.size = blk.size) (hB : b.memBlock = c.blocks.next) (hprev : b.prev = none)
    (hnext : b.next = none) (hquiet : b.isEventNotUsed = true) :
    Tidy
      { alloc := { c.alloc with memBlocks := c.alloc.memBlocks ++ [c.blocks.next] }
        bufs := c.bufs.new b, blocks := c.blocks.new blk, env := env }
      (Function.update lay c.blocks.next [c.bufs.next]) (some c.bufs.next) := by
  have hinv := h.inv.expand blk (hexp.can.apart size blk env hcb) hexp.can.fresh haddr hsize hB
    hprev hnext hquiet
  have hold : ∀ C ∈ c.alloc.memBlocks, C ≠ c.blocks.next := fun C hC => by
    obtain ⟨k, hk, -⟩ := h.inv.chain C hC
    exact Heap.ne_next hk
  have hcases : ∀ C, C ∈ c.alloc.memBlocks ++ [c.blocks.next] →
      (C ∈ c.alloc.memBlocks ∧ Function.update lay c.blocks.next [c.bufs.next] C = lay C) ∨
        Function.update lay c.blocks.next [c.bufs.next] C = [c.bufs.next] := by
    intro C hC
    rcases List.mem_append.mp hC with hC | hC
    · exact .inl ⟨hC, Function.update_of_ne (hold C hC) _ _⟩
    · rw [List.mem_singleton.mp hC]
      exact .inr (Function.update_self _ _ _)
  have hget : ∀ C ∈ c.alloc.memBlocks, ∀ r ∈ lay C,
      (dataOf (c.bufs.new b)).get r = (dataOf c.bufs).get r := by
    intro C hC r hr
    obtain ⟨y, hy, -⟩ := h.inv.memBlock_of_mem hC hr
    rw [dataOf_new, Heap.get_new, dataOf_next, if_neg (Heap.ne_next hy)]
  exact {
    inv := hinv
    spaced := Spaced.new h.spaced hold (hexp.base size blk env hcb)
    zero := by
      intro C hC r hr d hd
      rcases hcases C hC with ⟨hC, hlay⟩ | hlay
      · rw [hlay] at hr
        exact h.zero C hC r hr d (hget C hC r (List.mem_of_mem_tail hr) ▸ hd)
      · rw [hlay] at hr
        cases hr
    twins := by
      intro C hC q r d e hadj hd he _ _
      rcases hcases C hC with ⟨hC, hlay⟩ | hlay
      · rw [hlay] at hadj
        exact h.twins C hC q r d e hadj (hget C hC q hadj.mem.1 ▸ hd)
          (hget C hC r hadj.mem.2 ▸ he) (by simp) (by simp)
      · rw [hlay] at hadj
        obtain ⟨L, R, hlist⟩ := hadj
        cases L with
        | nil => cases hlist
        | cons l L => simp at hlist
    free := by
      show SetFull (dataOf (c.bufs.new b)) _ _ _ _
      rw [dataOf_new]
      exact SetFull.new (h.free.own_append hexp.can.fresh) b.data
    eager := by
      show SetFull (dataOf (c.bufs.new b)) _ _ _ _
      rw [dataOf_new]
      exact SetFull.new (h.eager.own_append hexp.can.fresh) b.data }

theorem mallocExpandBlock_tidy {cb : Callbacks ε} {size : Nat} {r : Option Nat}
    (h : Tidy c lay none) (hexp : Expandable cb c)
    (hres : mallocExpandBlock cb size c = some (r, c')) :
    ∃ lay', Ext c c' lay lay' ∧ Tidy c' lay' none := by
  unfold mallocExpandBlock expandBlock at hres
  obtain ⟨⟨B, c₁⟩, hblock, hres⟩ := Option.bind_eq_some_iff.mp hres
  obtain ⟨⟨blk?, env⟩, hcb, hblock⟩ := Option.bind_eq_some_iff.mp hblock
  cases blk? with
  | none =>
      cases hblock
      cases hres
      exact ⟨lay, Ext.of_eq rfl rfl rfl rfl, h.env env⟩
  | some blk =>
      cases hblock
      simp only [Heap.get_new_self] at hres
      generalize hb : blockBuf blk c.blocks.next c.alloc.enableEagerFree = b at hres
      have hB : b.memBlock = c.blocks.next := by
        rw [← hb]
        rfl
      have hfree : b.status.isFree := by
        rw [← hb]
        unfold blockBuf
        dsimp only
        split
        · exact .inr rfl
        · exact .inl rfl
      have htidy := expand_tidy (b := b) h hexp hcb (by rw [← hb]; rfl) (by rw [← hb]; rfl) hB
        (by rw [← hb]; rfl) (by rw [← hb]; rfl) (by rw [← hb]; rfl)
      have hext : Ext c _ lay (Function.update lay c.blocks.next [c.bufs.next]) :=
        expand_ext b blk env hB
      have hget : (c.bufs.new b).get c.bufs.next = some b := Heap.get_new_self _ _
      have hB' : b.memBlock ∈ c.alloc.memBlocks ++ [c.blocks.next] := by
        rw [hB]
        simp
      have hlay : Function.update lay c.blocks.next [c.bufs.next] b.memBlock =
          [c.bufs.next] := by
        rw [hB, Function.update_self]
      generalize hc₁ : (Ctx.mk { c.alloc with memBlocks := c.alloc.memBlocks ++ [c.blocks.next] }
        (c.bufs.new b) (c.blocks.new blk) env : Ctx ε) = c₁ at htidy hext
      have halone : Alone c₁ (Function.update lay c.blocks.next [c.bufs.next]) c.bufs.next
          b := by
        have hnone : ∀ q r, ¬ Adj (Function.update lay c.blocks.next [c.bufs.next]
            b.memBlock) q r := by
          rintro q r ⟨L, R, hlist⟩
          rw [hlay] at hlist
          cases L with
          | nil => cases hlist
          | cons l L => simp at hlist
        exact ⟨fun q d hadj => absurd hadj (hnone q _), fun r d hadj => absurd hadj (hnone _ r)⟩
      by_cases hsize : b.size < size
      · rw [if_pos hsize] at hres
        obtain ⟨rfl, hc'⟩ := Prod.mk.inj (Option.some.inj hres)
        have hc' : c' = { c₁ with
            alloc := c₁.alloc.emplace c₁.bufs b.status c.bufs.next } := by
          rw [← hc', ← hc₁]
          rcases hfree with hst | hst <;> rw [hst] <;> rfl
        have hfin := htidy.emplace (by rw [← hc₁]; exact hget) (by rw [← hc₁]; exact hB') hfree
          halone
        rw [hc']
        refine ⟨_, hext.trans (Ext.of_eq ?_ rfl rfl ?_), hfin⟩
        · exact emplace_memBlocks ..
        · exact emplace_enableEagerFree ..
      · rw [if_neg hsize] at hres
        have hres : mapAndSplitMemBuf cb c.bufs.next size c₁ = some (r, c') := by
          rw [← hc₁]
          exact hres
        obtain ⟨lay', hext', hfin⟩ := mapAndSplitMemBuf_tidy htidy (by rw [← hc₁]; exact hget)
          (by rw [← hc₁]; exact hB') hfree halone
          (fun _ => by
            rw [hlay]
            exact List.not_mem_nil) hres
        exact ⟨lay', hext.trans hext', hfin⟩

/-- `Malloc` of at least one byte. -/
theorem malloc_tidy {cb : Callbacks ε} {size : Nat} {r : Option Nat} (h : Tidy c lay none)
    (hexp : Expandable cb c) (hsize : 0 < size) (hres : malloc cb size c = some (r, c')) :
    ∃ lay', Ext c c' lay lay' ∧ Tidy c' lay' none := by
  unfold malloc at hres
  split at hres
  · exact mallocExpandBlock_tidy h hexp hres
  · split at hres
    · rename_i p hp
      obtain ⟨b, hb, hB, hst, -⟩ := lowerBound_fits h.inv.free hp
      have halone := h.alone hb hB (.inl hst)
      obtain ⟨lay', hext, htidy⟩ := mapAndSplitMemBuf_tidy (h.eraseFree hb hst) hb hB (.inl hst)
        ⟨halone.left, halone.right⟩ (fun h0 => absurd h0 hsize.ne') hres
      have hfirst : Ext c
          { c with alloc := { c.alloc with freeMemBufs := c.alloc.freeMemBufs.erase p } }
          lay lay := Ext.of_eq rfl rfl rfl rfl
      exact ⟨lay', hfirst.trans hext, htidy⟩
    · split at hres
      · rename_i p hp
        obtain ⟨b, hb, hB, hst, -⟩ := lowerBound_fits h.inv.eager hp
        have halone := h.alone hb hB (.inr hst)
        obtain ⟨lay', hext, htidy⟩ := mapAndSplitMemBuf_tidy (h.eraseEagerFree hb hst) hb hB
          (.inr hst) ⟨halone.left, halone.right⟩ (fun h0 => absurd h0 hsize.ne') hres
        have hfirst : Ext c
            { c with alloc := { c.alloc with
              eagerFreeMemBufs := c.alloc.eagerFreeMemBufs.erase p } }
            lay lay := Ext.of_eq rfl rfl rfl rfl
        exact ⟨lay', hfirst.trans hext, htidy⟩
      · cases hres
        exact ⟨lay, Ext.of_eq rfl rfl rfl rfl, h⟩

end MemBufAllocator

end Ccbase.Memory
