import Ccbase.Memory.Sizes
import Mathlib.Algebra.BigOperators.Intervals

/-!
# The counters of used and of allocated memory

`used_size_` follows the buffers in use and `alloc_size_` the blocks. The buffers of a block
have its size together, so the first counter is never above the second.

Blocks below `b₀` are those of an earlier life of the pool; nothing here is about them.
-/

namespace Ccbase.Memory

open Ccbase.Lib Relation

variable {δ : Type} {dev : Device δ}

/-- The buffers of the blocks from `b₀` on. -/
def fromBlock (b₀ : Nat) (_ : MemBufStatus) (B : Nat) : Bool := decide (b₀ ≤ B)

/-- Those of them that are in use. -/
def inUseFrom (b₀ : Nat) (st : MemBufStatus) (B : Nat) : Bool :=
  decide (b₀ ≤ B) && (decide (st = .used) || decide (st = .usedByEvent))

theorem inUseFrom_of_free {b₀ B : Nat} {st : MemBufStatus} (h : st.isFree) :
    inUseFrom b₀ st B = false := by
  rcases h with rfl | rfl
  · simp [inUseFrom]
  · simp [inUseFrom]

theorem inUseFrom_of_not_free {b₀ B : Nat} {st : MemBufStatus} (h : ¬ st.isFree) (hB : b₀ ≤ B) :
    inUseFrom b₀ st B = true := by
  cases st with
  | idle => exact absurd (.inl rfl) h
  | eagerFree => exact absurd (.inr rfl) h
  | used => simp [inUseFrom, hB]
  | usedByEvent => simp [inUseFrom, hB]

/-- A free buffer changes its status to another free one. -/
theorem sum_inUse_free {b₀ p : Nat} {D : Heap BufData} {d : BufData} {st : MemBufStatus}
    (hp : D.get p = some d) (hd : d.status.isFree) (hst : st.isFree) :
    (D.modify p fun x => { x with status := st }).sum (BufData.sizeWhere (inUseFrom b₀)) =
      D.sum (BufData.sizeWhere (inUseFrom b₀)) := by
  have hmod := sum_sizeWhere_status (P := inUseFrom b₀) hp st
  rw [BufData.sizeWhere, inUseFrom_of_free hd, inUseFrom_of_free hst] at hmod
  exact hmod

theorem sum_from_status {b₀ p : Nat} {D : Heap BufData} {d : BufData} (hp : D.get p = some d)
    (st : MemBufStatus) :
    (D.modify p fun x => { x with status := st }).sum (BufData.sizeWhere (fromBlock b₀)) =
      D.sum (BufData.sizeWhere (fromBlock b₀)) := by
  have hmod := sum_sizeWhere_status (P := fromBlock b₀) hp st
  have hsame : (if fromBlock b₀ st d.memBlock then d.size else 0) =
      d.sizeWhere (fromBlock b₀) := rfl
  rw [hsame] at hmod
  omega

namespace Arena

variable {vmm : Bool} {law : DeviceLaw dev} {b₀ : Nat} {A A' : Arena δ}

open Classical in
/-- The size of all blocks. -/
noncomputable def heldSize (A : Arena δ) : Nat :=
  ∑ B ∈ (Finset.range A.blocks.next).filter fun B => ∃ k, A.owns k B,
    Heap.weight Prod.snd (A.blocks.get B)

theorem heldSize_congr (hblocks : A'.blocks = A.blocks) (howns : A'.owns = A.owns) :
    A'.heldSize = A.heldSize := by
  unfold heldSize
  rw [hblocks, howns]

theorem heldSize_expand (hb : Base law vmm b₀ A) {k : AllocatorKey} {r : Nat × Nat}
    (hblocks : A'.blocks = A.blocks.new r)
    (howns : A'.owns = Function.update A.owns k fun B => A.owns k B ∨ B = A.blocks.next) :
    A'.heldSize = A.heldSize + r.2 := by
  have hbelow : ∀ k B, A.owns k B → B < A.blocks.next := by
    intro k B hB
    obtain ⟨r, hr, -⟩ := hb.held k B hB
    exact Heap.lt_next hr
  have hiff : ∀ B, (∃ k', A'.owns k' B) ↔ (∃ k', A.owns k' B) ∨ B = A.blocks.next := by
    intro B
    rw [howns]
    constructor
    · rintro ⟨k', hk'⟩
      by_cases hk : k' = k
      · subst hk
        rw [Function.update_self] at hk'
        exact hk'.imp (fun h => ⟨k', h⟩) id
      · rw [Function.update_of_ne hk] at hk'
        exact .inl ⟨k', hk'⟩
    · rintro (⟨k', hk'⟩ | hB)
      · by_cases hk : k' = k
        · subst hk
          exact ⟨k', by rw [Function.update_self]; exact .inl hk'⟩
        · exact ⟨k', by rw [Function.update_of_ne hk]; exact hk'⟩
      · exact ⟨k, by rw [Function.update_self]; exact .inr hB⟩
  classical
  have hset : (Finset.range A'.blocks.next).filter (fun B => ∃ k, A'.owns k B) =
      insert A.blocks.next ((Finset.range A.blocks.next).filter fun B => ∃ k, A.owns k B) := by
    ext B
    rw [hblocks, Heap.next_new, Finset.mem_insert, Finset.mem_filter, Finset.mem_filter, hiff,
      Finset.mem_range, Finset.mem_range]
    constructor
    · rintro ⟨-, ⟨k', hk'⟩ | hB⟩
      · exact .inr ⟨hbelow k' B hk', k', hk'⟩
      · exact .inl hB
    · rintro (hB | ⟨hlt, hB⟩)
      · exact ⟨by omega, .inr hB⟩
      · exact ⟨by omega, .inl hB⟩
  have hold : ∀ B ∈ (Finset.range A.blocks.next).filter (fun B => ∃ k, A.owns k B),
      Heap.weight Prod.snd (A'.blocks.get B) = Heap.weight Prod.snd (A.blocks.get B) := by
    intro B hB
    have hlt := Finset.mem_range.mp (Finset.mem_filter.mp hB).1
    rw [hblocks, Heap.get_new, if_neg (by omega)]
  unfold heldSize
  rw [hset, Finset.sum_insert (by simp), Finset.sum_congr rfl hold, hblocks, Heap.get_new_self,
    Heap.weight_some, Nat.add_comm]

/-- A new buffer is free. -/
theorem sizeWhere_ofBlock (blk : MemBlock) (B : Nat) (eager : Bool) :
    (BufData.ofBlock blk B eager).sizeWhere (inUseFrom b₀) = 0 := by
  refine if_neg ?_
  cases eager with
  | false =>
      show ¬ inUseFrom b₀ .idle B = true
      rw [inUseFrom_of_free (.inl rfl)]
      exact Bool.false_ne_true
  | true =>
      show ¬ inUseFrom b₀ .eagerFree B = true
      rw [inUseFrom_of_free (.inr rfl)]
      exact Bool.false_ne_true

/-- The counters are exact, up to a multiple of `2 ^ 64`. -/
structure Counted (b₀ : Nat) (A : Arena δ) : Prop where
  used : A.env.memStat.usedSize = A.bufs.sum (BufData.sizeWhere (inUseFrom b₀)) % sizeBound
  alloc : A.env.memStat.allocSize = A.heldSize % sizeBound
  tiled : A.bufs.sum (BufData.sizeWhere (fromBlock b₀)) = A.heldSize

/-- Buffers change, their sums and the counters do not. -/
theorem Counted.congr (h : Counted b₀ A) (hblocks : A'.blocks = A.blocks)
    (howns : A'.owns = A.owns)
    (hused : A'.env.memStat.usedSize = A.env.memStat.usedSize)
    (halloc : A'.env.memStat.allocSize = A.env.memStat.allocSize)
    (hinUse : A'.bufs.sum (BufData.sizeWhere (inUseFrom b₀)) =
      A.bufs.sum (BufData.sizeWhere (inUseFrom b₀)))
    (hall : A'.bufs.sum (BufData.sizeWhere (fromBlock b₀)) =
      A.bufs.sum (BufData.sizeWhere (fromBlock b₀))) : Counted b₀ A' where
  used := by rw [hused, hinUse, h.used]
  alloc := by rw [halloc, heldSize_congr hblocks howns, h.alloc]
  tiled := by rw [hall, heldSize_congr hblocks howns, h.tiled]

theorem sums_sweeps {ε : Type} {cb : Callbacks ε} {m m' : Core ε} {n : Nat}
    (h : Sweeps cb m n m') :
    m'.bufs.sum (BufData.sizeWhere (inUseFrom b₀)) =
        m.bufs.sum (BufData.sizeWhere (inUseFrom b₀)) ∧
      m'.bufs.sum (BufData.sizeWhere (fromBlock b₀)) =
        m.bufs.sum (BufData.sizeWhere (fromBlock b₀)) := by
  induction h with
  | refl => exact ⟨rfl, rfl⟩
  | convert _ hp _ hst ih =>
      exact ⟨(sum_inUse_free hp (.inl hst) (.inr rfl)).trans ih.1,
        (sum_from_status hp .eagerFree).trans ih.2⟩
  | merge _ hD ih =>
      exact ⟨(sum_sizeWhere_merge hD).trans ih.1, (sum_sizeWhere_merge hD).trans ih.2⟩
  | unmap _ _ _ _ _ ih => exact ih

theorem SweepsAll.sums {n : Nat} (h : SweepsAll dev A n A') :
    A'.bufs.sum (BufData.sizeWhere (inUseFrom b₀)) =
        A.bufs.sum (BufData.sizeWhere (inUseFrom b₀)) ∧
      A'.bufs.sum (BufData.sizeWhere (fromBlock b₀)) =
        A.bufs.sum (BufData.sizeWhere (fromBlock b₀)) := by
  induction h with
  | refl => exact ⟨rfl, rfl⟩
  | tail _ _ hm ih => exact ⟨(sums_sweeps hm).1.trans ih.1, (sums_sweeps hm).2.trans ih.2⟩

theorem Counted.background (hb : Base law vmm b₀ A) (h : Counted b₀ A)
    (hs : Background dev vmm A A') : Counted b₀ A' := by
  cases hs with
  | @churn k s m hvmm hc =>
      subst hvmm
      cases hc with
      | split hp hB hfree hn =>
          exact h.congr rfl (put_owns_eq rfl) rfl rfl (sum_sizeWhere_split hp hn)
            (sum_sizeWhere_split hp hn)
      | mapFail hp hB hst hn hcb hk =>
          obtain ⟨d', -, rfl⟩ := Pool.memMapper_eq dev hcb
          exact h.congr rfl (put_owns_eq rfl) rfl rfl rfl rfl
      | expand hcb =>
          rcases Pool.memBlockExpander_cases dev hcb with ⟨hr, -⟩ | ⟨n, sz, ad, d', -, hr⟩
          · cases hr
          · rcases hr with ⟨-, hr, -⟩ | ⟨-, sid, hr, rfl⟩
            · cases hr
            · cases hr
              have hcounters := grow_counters (isEager dev s.enableVmm k) sz A.env.memStat
              refine ⟨?_, ?_, ?_⟩
              · show (Pool.grow _ sz A.env.memStat).usedSize = (A.bufs.new _).sum _ % _
                rw [hcounters.1, Heap.sum_new, sizeWhere_ofBlock, h.used, Nat.add_zero]
              · rw [heldSize_expand hb (r := (ad, sz)) rfl rfl]
                show addSize A.env.memStat.allocSize sz = _
                rw [h.alloc, addSize_mod]
              · rw [heldSize_expand hb (r := (ad, sz)) rfl rfl, ← h.tiled]
                show (A.bufs.new _).sum _ = _
                rw [Heap.sum_new]
                congr 1
                exact if_pos (decide_eq_true hb.start)
      | expandFail hcb =>
          rcases Pool.memBlockExpander_cases dev hcb with ⟨-, rfl⟩ | ⟨n, sz, ad, d', -, hr⟩
          · exact h.congr rfl (put_owns_eq rfl) rfl rfl rfl rfl
          · rcases hr with ⟨rfl, -, rfl⟩ | ⟨_, _, hr, _⟩
            · have hcounters := grow_counters (isEager dev s.enableVmm k) 0 A.env.memStat
              exact h.congr rfl (put_owns_eq rfl) hcounters.1 hcounters.2.2.2 rfl rfl
            · cases hr
  | @sweep n A₁ hsw =>
      have hf := hsw.frame
      have hused := congrArg MemStat.usedSize hf.memStat
      have halloc := congrArg MemStat.allocSize hf.memStat
      exact h.congr hf.blocks hf.owns hused halloc hsw.sums.1 hsw.sums.2
  | sync _ => exact ⟨h.used, h.alloc, h.tiled⟩

theorem Counted.path (hb : Base law vmm b₀ A) (h : Counted b₀ A)
    (hs : ReflTransGen (Background dev vmm) A A') : Counted b₀ A' := by
  induction hs with
  | refl => exact h
  | tail hpath hstep ih => exact ih.background (hb.path hpath) hstep

/-- A buffer that is handed out was free. -/
theorem Counted.hand {size p : Nat} {k : AllocatorKey} (hb : Base law vmm b₀ A)
    (h : Counted b₀ A) (hh : Hand dev size p k A A') : Counted b₀ A' := by
  obtain ⟨d, hf⟩ := hh.frame
  obtain ⟨hblocks, howns⟩ := hh.blocks
  have hlow := hb.low k d.memBlock hf.owns
  have hstat : A'.env.memStat.usedSize = addSize A.env.memStat.usedSize d.size ∧
      A'.env.memStat.allocSize = A.env.memStat.allocSize := by
    cases hh with
    | @mk s m d₁ ht hd =>
        obtain ⟨d₀, hp, -, -, -, hm, -, -⟩ := take_get ht
        have hd₀ : d₀ = d := by
          rw [hf.free.1] at hp
          exact (Option.some.inj hp).symm
        have hd₁ : d₁.size = d.size := by
          rw [hm, Heap.get_modify_self, hp] at hd
          cases hd
          rw [hd₀]
        have henter : ∀ (B : Arena δ) (a : Nat) (v : Nat × AllocatorKey),
            (B.enter a v).env = B.env := by
          intro B a v
          unfold enter
          split <;> rfl
        have htake : m.env.memStat.usedSize = A.env.memStat.usedSize ∧
            m.env.memStat.allocSize = A.env.memStat.allocSize := by
          cases ht with
          | idle _ _ _ _ => exact ⟨rfl, rfl⟩
          | eager _ _ _ _ hcb =>
              obtain ⟨d', -, rfl⟩ := Pool.memMapper_eq dev hcb
              exact ⟨rfl, rfl⟩
        rw [henter]
        show addSize m.env.memStat.usedSize d₁.size = _ ∧ m.env.memStat.allocSize = _
        rw [htake.1, htake.2, hd₁]
        exact ⟨rfl, rfl⟩
  have hmod := sum_sizeWhere_status (P := inUseFrom b₀) hf.free.1 .used
  rw [BufData.sizeWhere, inUseFrom_of_free hf.free.2, inUseFrom_of_not_free not_isFree_used hlow]
    at hmod
  have hmod : A'.bufs.sum (BufData.sizeWhere (inUseFrom b₀)) =
      A.bufs.sum (BufData.sizeWhere (inUseFrom b₀)) + d.size := by
    rw [hf.bufs]
    exact hmod
  refine ⟨?_, ?_, ?_⟩
  · rw [hstat.1, hmod, h.used, addSize_mod]
  · rw [hstat.2, heldSize_congr hblocks howns, h.alloc]
  · rw [heldSize_congr hblocks howns, hf.bufs, sum_from_status hf.free.1, h.tiled]

/-- A buffer that is freed was in use, whether it is free now or waits for events. -/
theorem Counted.free {addr : Nat} {ok : Bool} (hb : Base law vmm b₀ A) (h : Counted b₀ A)
    (hf : FreeStep addr A ok A') : Counted b₀ A' := by
  have hcounted : ∀ p k d, A.live.lookup addr = some (p, k) → A.bufs.get p = some d →
      b₀ ≤ d.memBlock ∧ d.sizeWhere (inUseFrom b₀) = d.size := by
    intro p k d hl hp
    obtain ⟨d', hd', -, hst, hB⟩ := hb.live _ _ _ hl
    rw [hp] at hd'
    cases hd'
    have hlow := hb.low k d.memBlock hB
    exact ⟨hlow, if_pos (inUseFrom_of_not_free hst hlow)⟩
  cases hf with
  | absent _ => exact h
  | release hr =>
      cases hr with
      | @mk p k d D hl hp hquiet hD =>
          obtain ⟨-, hsize⟩ := hcounted p k d hl hp
          have hmod := sum_sizeWhere_status (P := inUseFrom b₀) hp .idle
          rw [inUseFrom_of_free (.inl rfl), hsize] at hmod
          have hmod : (A.bufs.modify p fun x => { x with status := .idle }).sum
              (BufData.sizeWhere (inUseFrom b₀)) + d.size =
                A.bufs.sum (BufData.sizeWhere (inUseFrom b₀)) := hmod
          refine ⟨?_, h.alloc, ?_⟩
          · show subSize A.env.memStat.usedSize d.size = D.sum _ % _
            rw [sum_sizeWhere_merges hD, h.used, subSize_mod (by omega)]
            congr 1
            omega
          · show D.sum _ = A.heldSize
            rw [sum_sizeWhere_merges hD, sum_from_status hp, h.tiled]
  | retain hr =>
      cases hr with
      | @mk p k d hl hp hused =>
          obtain ⟨hlow, hsize⟩ := hcounted p k d hl hp
          have hmod := sum_sizeWhere_status (P := inUseFrom b₀) hp .usedByEvent
          rw [inUseFrom_of_not_free not_isFree_usedByEvent hlow, hsize] at hmod
          exact h.congr rfl rfl rfl rfl (Nat.add_right_cancel hmod) (sum_from_status hp _)

theorem Counted.plain (hb : Base law vmm b₀ A) (h : Counted b₀ A) (hs : Plain dev vmm A A') :
    Counted b₀ A' := by
  cases hs with
  | quiet hpath => exact h.path hb hpath
  | hand hpath hh => exact (h.path hb hpath).hand (hb.path hpath) hh
  | free hf => exact h.free hb hf

end Arena

namespace Pool

variable {law : DeviceLaw dev} {b₀ : Nat} {s s' : Pool δ}

/-! ## The blocks of all allocators -/

/-- The blocks that the allocators of the pool hold. -/
def heldBlocks (s : Pool δ) : List Nat := s.allocators.flatMap fun e => e.2.memBlocks

/-- The total size of the blocks that the pool holds. -/
def blockTotal (s : Pool δ) : Nat :=
  ((heldBlocks s).map fun B => Heap.weight MemBlock.size (s.blocks.get B)).sum

theorem mem_allocators {k : AllocatorKey} {al : MemBufAllocator} :
    (k, al) ∈ s.allocators ↔ s.allocator? k = some al := by
  cases k with
  | tiny => simp [allocators, allocator?]
  | stream b n =>
      simp only [allocators, allocator?, List.mem_append, List.mem_map, OrdMap.find?_eq_some_iff]
      constructor
      · rintro (⟨al', -, heq⟩ | ⟨⟨key, al'⟩, hmem, heq⟩)
        · cases heq
        · cases heq
          exact hmem
      · intro hmem
        exact .inr ⟨(toLex (b, n), al), hmem, rfl⟩

theorem pairwise_allocators (s : Pool δ) : s.allocators.Pairwise fun e e' => e.1 ≠ e'.1 := by
  unfold allocators
  rw [List.pairwise_append]
  refine ⟨?_, ?_, ?_⟩
  · cases s.tinyAllocator with
    | none => exact .nil
    | some al => exact List.pairwise_singleton _ _
  · rw [List.pairwise_map]
    refine s.streamIdAllocators.sorted.imp fun {e e'} hlt heq => ?_
    have heq : (ofLex e.1).1 = (ofLex e'.1).1 ∧ (ofLex e.1).2 = (ofLex e'.1).2 := by
      simpa using heq
    exact absurd hlt (not_lt.mpr (le_of_eq (Prod.ext heq.1 heq.2).symm))
  · intro e he e' he' heq
    obtain ⟨al, -, rfl⟩ := List.mem_map.mp he
    obtain ⟨d, -, rfl⟩ := List.mem_map.mp he'
    cases heq

theorem mem_heldBlocks {B : Nat} : B ∈ heldBlocks s ↔ ∃ k, s.arena.owns k B := by
  unfold heldBlocks
  rw [List.mem_flatMap]
  constructor
  · rintro ⟨⟨k, al⟩, hmem, hB⟩
    exact ⟨k, al, mem_allocators.mp hmem, hB⟩
  · rintro ⟨k, al, hal, hB⟩
    exact ⟨(k, al), mem_allocators.mpr hal, hB⟩

/-- No block is held twice. -/
theorem Inv.nodup_heldBlocks (h : Inv law b₀ s) : (heldBlocks s).Nodup := by
  obtain ⟨lay, hlay⟩ := h.alloc
  unfold heldBlocks
  rw [List.nodup_flatMap]
  refine ⟨fun e he => (hlay e.1 e.2 (mem_allocators.mp he)).blocksNodup, ?_⟩
  refine (pairwise_allocators s).imp_of_mem fun {e e'} he he' hne => ?_
  rw [Function.onFun, List.disjoint_iff_ne]
  rintro B hB _ hB' rfl
  exact hne (h.base.excl e.1 e'.1 B ⟨e.2, mem_allocators.mp he, hB⟩
    ⟨e'.2, mem_allocators.mp he', hB'⟩)

theorem Inv.heldSize_eq (h : Inv law b₀ s) : s.arena.heldSize = blockTotal s := by
  classical
  have hset : (Finset.range s.arena.blocks.next).filter (fun B => ∃ k, s.arena.owns k B) =
      (heldBlocks s).toFinset := by
    ext B
    rw [Finset.mem_filter, Finset.mem_range, List.mem_toFinset, mem_heldBlocks]
    refine ⟨fun hB => hB.2, fun hB => ⟨?_, hB⟩⟩
    obtain ⟨k, hk⟩ := hB
    obtain ⟨r, hr, -⟩ := h.base.held k B hk
    exact Heap.lt_next hr
  unfold Arena.heldSize blockTotal
  rw [hset, List.sum_toFinset _ h.nodup_heldBlocks]
  congr 1
  refine List.map_congr_left fun B _ => ?_
  show Heap.weight Prod.snd ((s.blocks.map MemBlock.span).get B) = _
  rw [Heap.get_map]
  cases s.blocks.get B <;> rfl

/-! ## Runs without events -/

/-- A pool without events whose counters are right. -/
structure CountInv (law : DeviceLaw dev) (b₀ : Nat) (s : Pool δ) : Prop where
  inv : Inv law b₀ s
  spread : Arena.Spread s.arena
  inSpace : Arena.InSpace s.arena
  noEvents : s.arena.pairs.entries.isEmpty = true
  counted : Arena.Counted b₀ s.arena

/-- The buffers together fit into the address space. -/
theorem CountInv.blockTotal_lt (h : CountInv law b₀ s) : blockTotal s < sizeBound := by
  have hle : s.arena.bufs.sum (BufData.sizeWhere (fromBlock b₀)) ≤ sizeBound - 1 := by
    refine Heap.sum_le_of_disjoint (fun d => if b₀ ≤ d.memBlock then d.addr else 0) ?_ ?_
    · intro p q x y a hp hq h1 h2 h3 h4
      simp only [BufData.sizeWhere, fromBlock, decide_eq_true_eq] at h1 h2 h3 h4
      split at h1
      · rename_i hx
        rw [if_pos hx, if_pos hx] at h2
        split at h3
        · rename_i hy
          rw [if_pos hy, if_pos hy] at h4
          exact h.inv.eq_of_overlap h.spread hp hq hx hy ⟨h1, h2⟩ ⟨h3, h4⟩
        · rename_i hy
          rw [if_neg hy, if_neg hy] at h4
          omega
      · rename_i hx
        rw [if_neg hx, if_neg hx] at h2
        omega
    · intro p x hp
      simp only [BufData.sizeWhere, fromBlock, decide_eq_true_eq]
      split
      · rename_i hx
        obtain ⟨k, al, hal, hB⟩ := h.inv.base.owned p x hp hx
        obtain ⟨lay, hlay⟩ := h.inv.alloc
        obtain ⟨blk, hblk, -, h2⟩ := (hlay k al hal).inside hp hB
        have hlt := h.inSpace k x.memBlock blk.span ⟨al, hal, hB⟩ (by simp [arena, hblk])
        have hspan : blk.span = (blk.addr, blk.size) := rfl
        rw [hspan] at hlt
        dsimp only at hlt
        omega
      · exact Nat.zero_le _
  have hpos : 0 < sizeBound := by decide
  rw [h.counted.tiled, h.inv.heldSize_eq] at hle
  omega

/-- `alloc_size_` is exact, and `used_size_` is not above it. -/
theorem CountInv.counters (h : CountInv law b₀ s) :
    s.memStat.usedSize = s.arena.bufs.sum (BufData.sizeWhere (inUseFrom b₀)) ∧
      s.memStat.allocSize = blockTotal s ∧ s.memStat.usedSize ≤ s.memStat.allocSize := by
  have hlt := h.blockTotal_lt
  have hle : s.arena.bufs.sum (BufData.sizeWhere (inUseFrom b₀)) ≤ blockTotal s := by
    rw [← h.inv.heldSize_eq, ← h.counted.tiled]
    refine Heap.sum_le_sum fun p d _ => ?_
    unfold BufData.sizeWhere
    by_cases hd : inUseFrom b₀ d.status d.memBlock = true
    · have hfrom : fromBlock b₀ d.status d.memBlock = true := (Bool.and_eq_true_iff.mp hd).1
      rw [if_pos hd, if_pos hfrom]
    · rw [if_neg hd]
      exact Nat.zero_le _
  have hused : s.memStat.usedSize = _ := h.counted.used
  have halloc : s.memStat.allocSize = _ := h.counted.alloc
  rw [h.inv.heldSize_eq, Nat.mod_eq_of_lt hlt] at halloc
  rw [Nat.mod_eq_of_lt (by omega)] at hused
  exact ⟨hused, halloc, by omega⟩

theorem CountInv.step (hdis : law.Disjoint) (hbd : dev.Bounded) (h : CountInv law b₀ s)
    {c : Call} (hc : noEventCall c) (hs : Step dev s c s') : CountInv law b₀ s' := by
  have hd := h.inv.plain h.noEvents hc hs
  refine ⟨hd.inv, ?_, ?_, ?_, ?_⟩
  · exact h.spread.plain hdis h.inv.base hd.step
  · exact h.inSpace.plain hbd h.inv.base hd.step
  · rw [hd.step.pairs h.inv.base]
    exact h.noEvents
  · exact h.counted.plain h.inv.base hd.step

end Pool

end Ccbase.Memory
