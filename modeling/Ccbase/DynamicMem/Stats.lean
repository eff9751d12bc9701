import Ccbase.DynamicMem.Live

/-!
# The statistics of a pool

`mps_` counts what is in use and what is idle. A search that takes an idle buf
counts right. A new block that is split leaves its rest uncounted, and a buf that
is joined with idle neighbours counts these again: from right counters, the
counters stay right as long as neither happens.
-/

namespace Ccbase.DynamicMem

open Ccbase.Lib

/-! ## Sums of sizes -/

/-- The bytes of the bufs of one status. -/
def sumOf (s : DynamicMemBufStatus) (bufs : List DynamicMemBuf) : Nat :=
  ((bufs.filter fun x => decide (x.status = s)).map DynamicMemBuf.size).sum

theorem sumOf_append (s : DynamicMemBufStatus) (xs ys : List DynamicMemBuf) :
    sumOf s (xs ++ ys) = sumOf s xs + sumOf s ys := by
  simp [sumOf]

theorem sumOf_cons (s : DynamicMemBufStatus) (x : DynamicMemBuf) (xs : List DynamicMemBuf) :
    sumOf s (x :: xs) = (if x.status = s then x.size else 0) + sumOf s xs := by
  by_cases h : x.status = s <;> simp [sumOf, h]

theorem sumOf_nil (s : DynamicMemBufStatus) : sumOf s [] = 0 := rfl

theorem sumOf_perm (s : DynamicMemBufStatus) {xs ys : List DynamicMemBuf} (h : xs.Perm ys) :
    sumOf s xs = sumOf s ys :=
  ((h.filter _).map _).sum_nat

/-- With no buf in eager free, what is not in use is idle. -/
theorem sumOf_used_add_idle {xs : List DynamicMemBuf} (h : ∀ x ∈ xs, x.status ≠ .eagerFree) :
    sumOf .used xs + sumOf .idle xs = (xs.map DynamicMemBuf.size).sum := by
  induction xs with
  | nil => rfl
  | cons x xs ih =>
      have hx := h x (List.mem_cons_self ..)
      have ih := ih fun y hy => h y (List.mem_cons_of_mem x hy)
      rw [sumOf_cons, sumOf_cons, List.map_cons, List.sum_cons]
      cases hstatus : x.status with
      | idle =>
          simp only [reduceCtorEq, if_true, if_false]
          omega
      | used =>
          simp only [reduceCtorEq, if_true, if_false]
          omega
      | eagerFree => exact absurd hstatus hx

def blockSum (blocks : List (DynamicMemBlock DynamicMemBuf)) : Nat :=
  (blocks.map DynamicMemBlock.memBlockSize).sum

theorem sum_allBufs {blocks : List (DynamicMemBlock DynamicMemBuf)}
    (h : ∀ b ∈ blocks, Tiles DynamicMemBuf.deviceAddr DynamicMemBuf.size b.deviceAddrBase
      b.blockAllMemBufMap (b.deviceAddrBase + b.memBlockSize)) :
    ((allBufs blocks).map DynamicMemBuf.size).sum = blockSum blocks := by
  induction blocks with
  | nil => rfl
  | cons b bs ih =>
      have hb := (h b (List.mem_cons_self ..)).sum_size
      have ih := ih fun b' hb' => h b' (List.mem_cons_of_mem b hb')
      rw [blockSum] at ih ⊢
      rw [allBufs_cons, List.map_append, List.sum_append, List.map_cons, List.sum_cons, ih]
      omega

/-- Blocks that are apart do not add up to more than the range they are in. -/
theorem add_blockSum_le (hi : Nat) {blocks : List (DynamicMemBlock DynamicMemBuf)} :
    ∀ lo : Nat, lo ≤ hi →
      (blocks.Pairwise fun b b' => b.deviceAddrBase + b.memBlockSize ≤ b'.deviceAddrBase) →
      (∀ b ∈ blocks, lo ≤ b.deviceAddrBase ∧ b.deviceAddrBase + b.memBlockSize ≤ hi) →
      lo + blockSum blocks ≤ hi := by
  induction blocks with
  | nil =>
      intro lo hlo _ _
      exact hlo
  | cons b bs ih =>
      intro lo hlo hpair hin
      obtain ⟨hb, hbs⟩ := List.pairwise_cons.mp hpair
      have hbin := hin b (List.mem_cons_self ..)
      have htail := ih _ hbin.2 hbs fun b' hb' =>
        ⟨hb b' hb', (hin b' (List.mem_cons_of_mem b hb')).2⟩
      rw [blockSum] at htail ⊢
      rw [List.map_cons, List.sum_cons]
      omega

theorem MngInv.blockSum_lt {m : MemStatusManager} (h : MngInv m) :
    blockSum m.memBlockList < sizeBound := by
  have hle := add_blockSum_le sizeBound 1 (by decide) h.placed.apart
    fun b hb => h.inSpace b hb
  omega

theorem MngInv.sums {m : MemStatusManager} (h : MngInv m) :
    sumOf .used (allBufs m.memBlockList) + sumOf .idle (allBufs m.memBlockList) =
      blockSum m.memBlockList := by
  rw [sumOf_used_add_idle h.noEager, sum_allBufs h.placed.tiles]

/-! ## Counters that are right -/

/-- `StatsInv m`: each counter is what it counts. -/
structure StatsInv (m : MemStatusManager) : Prop where
  total : m.mps.totalMemSize = blockSum m.memBlockList
  used : m.mps.totalUsedMemSize = sumOf .used (allBufs m.memBlockList)
  idle : m.mps.totalIdleMemSize = sumOf .idle (allBufs m.memBlockList)
  eager : m.mps.totalEagerFreeMemSize = 0

theorem StatsInv.same {m m' : MemStatusManager} (h : StatsInv m) (hsame : SameMng m m') :
    StatsInv m' where
  total := by rw [hsame.mps, hsame.blocks]; exact h.total
  used := by rw [hsame.mps, hsame.blocks]; exact h.used
  idle := by rw [hsame.mps, hsame.blocks]; exact h.idle
  eager := by rw [hsame.mps]; exact h.eager

section Step

variable {split : Nat → Nat → Bool} {size : Nat} {m m' : MemStatusManager}
  {L R : List (DynamicMemBlock DynamicMemBuf)} {blk : DynamicMemBlock DynamicMemBuf}
  {l r : List DynamicMemBuf} {x : DynamicMemBuf}

theorem blockSum_setBufs (bufs : List DynamicMemBuf) :
    blockSum (L ++ blk.setBufs bufs :: R) = blockSum (L ++ blk :: R) := by
  simp [blockSum, DynamicMemBlock.setBufs]

theorem sumOf_at (s : DynamicMemBufStatus) (bufs : List DynamicMemBuf) :
    sumOf s (allBufs (L ++ blk.setBufs bufs :: R)) =
      sumOf s (allBufs L) + sumOf s bufs + sumOf s (allBufs R) := by
  rw [allBufs_setBufs, sumOf_append, sumOf_append]

/-- What the bufs become that a buf is taken from. -/
theorem sumOf_takeBufs (hsplits : Splits split) (hask : Asked size) (hfits : size ≤ x.size)
    (hlt : x.size < sizeBound) :
    sumOf .used (takeBufs split size x) = takeSize split size x ∧
      sumOf .idle (takeBufs split size x) + takeSize split size x = x.size := by
  rw [takeBufs, takeSize]
  split
  · rename_i hsplit
    have := hsplits size x.size hask hfits hlt hsplit
    simp only [sumOf_cons, sumOf_nil, restOf, reduceCtorEq, if_true, if_false]
    omega
  · simp only [sumOf_cons, sumOf_nil, reduceCtorEq, if_true, if_false]
    omega

/-- The sums around a place. -/
theorem sumOf_place (s : DynamicMemBufStatus) (hat : At m.memBlockList L blk R l x r) :
    sumOf s (allBufs m.memBlockList) =
      sumOf s (allBufs L) + (sumOf s l + ((if x.status = s then x.size else 0) + sumOf s r)) +
        sumOf s (allBufs R) := by
  rw [allBufs_at hat, sumOf_append, sumOf_append, sumOf_append, sumOf_cons]

theorem Taken.stats (hsplits : Splits split) (hinv : MngInv m) (hask : Asked size)
    (h : Taken split size m m' L blk R l x r) (hs : StatsInv m) : StatsInv m' := by
  obtain ⟨hstart, hend⟩ := end_le_of_at hinv.placed hinv.inSpace h.place
  obtain ⟨hused, hidle⟩ := sumOf_takeBufs hsplits hask h.fits (show x.size < sizeBound by omega)
  have hsum := hinv.sums
  have hlt := hinv.blockSum_lt
  rw [← hsum] at hlt
  have husedAt := sumOf_place .used h.place
  have hidleAt := sumOf_place .idle h.place
  simp only [h.idle, reduceCtorEq, if_true, if_false] at husedAt hidleAt
  have hn : takeSize split size x ≤ sumOf .idle (allBufs m.memBlockList) := by omega
  refine ⟨?_, ?_, ?_, ?_⟩
  · rw [h.mps, h.blocks, blockSum_setBufs, ← h.place.blocks]
    exact hs.total
  · rw [h.mps, h.blocks, sumOf_at, sumOf_append, sumOf_append, hused]
    show addSize m.mps.totalUsedMemSize _ = _
    rw [hs.used, addSize_eq (by omega)]
    omega
  · rw [h.mps, h.blocks, sumOf_at, sumOf_append, sumOf_append]
    show subSize m.mps.totalIdleMemSize _ = _
    rw [hs.idle, subSize_eq (by omega) hn]
    omega
  · rw [h.mps]
    exact hs.eager

/-- A block that is not split counts as a whole. -/
theorem Created.stats {addr len streamId : Nat} (hinv : MngInv m) (hinv' : MngInv m')
    (h : Created split size addr len streamId m m' L R) (hwhole : split size len = false)
    (hs : StatsInv m) : StatsInv m' := by
  have htake : takeBufs split size (wholeBuf addr len) =
      [{ wholeBuf addr len with status := .used }] := by
    rw [takeBufs, wholeBuf, hwhole]
    rfl
  have hsize : takeSize split size (wholeBuf addr len) = len := by
    rw [takeSize, wholeBuf, hwhole]
    rfl
  have hsums : ∀ s, sumOf s (allBufs m.memBlockList) =
      sumOf s (allBufs L) + sumOf s (allBufs R) := by
    intro s
    rw [← sumOf_append, ← allBufs_append]
    exact sumOf_perm s (h.perm.symm.flatMap_right _)
  have hblocks : blockSum m'.memBlockList = blockSum m.memBlockList + len := by
    have hperm := (h.perm.map DynamicMemBlock.memBlockSize).sum_nat
    rw [h.blocks, blockSum_setBufs, blockSum, blockSum, ← hperm]
    simp only [List.map_append, List.map_cons, List.sum_append, List.sum_cons, wholeBlock]
    omega
  have hlt := hinv'.blockSum_lt
  rw [hblocks] at hlt
  have hsum := hinv.sums
  refine ⟨?_, ?_, ?_, ?_⟩
  · rw [h.mps, hblocks]
    show addSize m.mps.totalMemSize len = _
    rw [hs.total, addSize_eq hlt]
  · rw [h.mps, h.blocks, sumOf_at, htake, sumOf_cons, sumOf_nil, hsize]
    show addSize m.mps.totalUsedMemSize len = _
    rw [hs.used, addSize_eq (by omega), hsums]
    simp only [wholeBuf, if_true]
    omega
  · rw [h.mps, h.blocks, sumOf_at, htake, sumOf_cons, sumOf_nil]
    show m.mps.totalIdleMemSize = _
    rw [hs.idle, hsums]
    simp
  · rw [h.mps]
    exact hs.eager

/-- A buf that is joined with nothing counts as what it is. -/
theorem Freed.stats (hinv : MngInv m) (h : Freed m m' L blk R l none x none r)
    (hs : StatsInv m) : StatsInv m' := by
  have hat : At m.memBlockList L blk R l x r := by simpa using h.place
  have hsum := hinv.sums
  have hlt := hinv.blockSum_lt
  rw [← hsum] at hlt
  have husedAt := sumOf_place .used hat
  have hidleAt := sumOf_place .idle hat
  simp only [h.used, reduceCtorEq, if_true, if_false] at husedAt hidleAt
  have hsize : (joined none x none).size = x.size := by simp [joined, sizeOpt]
  refine ⟨?_, ?_, ?_, ?_⟩
  · rw [h.mps, h.blocks, blockSum_setBufs, ← hat.blocks]
    exact hs.total
  · rw [h.mps, h.blocks, sumOf_at, sumOf_append, sumOf_cons]
    show subSize m.mps.totalUsedMemSize _ = _
    rw [hs.used, subSize_eq (by omega) (by omega)]
    simp only [joined, reduceCtorEq, if_false]
    omega
  · rw [h.mps, h.blocks, sumOf_at, sumOf_append, sumOf_cons, hsize]
    show addSize m.mps.totalIdleMemSize _ = _
    rw [hs.idle, addSize_eq (by omega)]
    simp only [joined, if_true]
    omega
  · rw [h.mps]
    exact hs.eager

end Step

/-! ## Runs -/

/-- A block that is handed out is not split, and a buf that comes back has no idle
neighbour. -/
def CountsRight (t : SplitTests) (c : Client) : Call → Prop
  | .alloc size _ _ d =>
      alignMemorySize size ≤ d.size → t.create (alignMemorySize size) d.size = false
  | .free a =>
      ∀ found ∈ c.pool.findByStrictAddr a,
        (∀ w ∈ found.2.2.1.getLast?, w.status ≠ .idle) ∧
          ∀ y ∈ found.2.2.2.2.head?, y.status ≠ .idle

instance decidableCountsRight (t : SplitTests) (c : Client) (l : Call) :
    Decidable (CountsRight t c l) :=
  match l with
  | .alloc .. => inferInstanceAs (Decidable (_ → _))
  | .free a => inferInstanceAs (Decidable (∀ found ∈ c.pool.findByStrictAddr a, _))

theorem statsInv_step {c c' : Client} {t : SplitTests} (hfind : Splits t.find)
    (hcreate : Splits t.create) (hinv : ClientInv c) {l : Call} (h : c.Step t l c')
    (hright : CountsRight t c l) (hs : ∀ b, StatsInv (c.pool.mng b)) :
    ∀ b, StatsInv (c'.pool.mng b) := by
  have hinv' := hinv.step hfind hcreate h
  have hsides : ∀ {b : Bool}, StatsInv (c'.pool.mng b) → Elsewhere b c.pool c'.pool →
      ∀ b', StatsInv (c'.pool.mng b') := by
    intro b hb he b'
    by_cases hbb : b' = b
    · rw [hbb]
      exact hb
    · obtain rfl : b' = !b := by
        cases b <;> cases b' <;> simp_all
      exact (hs (!b)).same he.other
  cases hinv.change hfind hcreate h with
  | same hsame hlive => exact fun b => (hs b).same (hsame.mngs b)
  | allocated hsize hd halloc hlive =>
      obtain ⟨hask, -⟩ := asked_alignMemorySize hsize
      cases halloc with
      | taken b hstream h he =>
          exact hsides (h.stats hfind (hinv.pool.mngs b) hask (hs b)) he
      | created b hfits h he =>
          exact hsides (h.stats (hinv.pool.mngs b) (hinv'.pool.mngs b) (hright hfits) (hs b)) he
  | @freed b L R blk l r x prev next hfreed he hlive =>
      obtain ⟨hprev, hnext⟩ := hright _ (findByStrictAddr_spec hinv.pool hfreed.place)
      obtain rfl : prev = none := by
        cases prev with
        | none => rfl
        | some w => exact absurd (hfreed.prevIdle w rfl) (hprev w (by simp))
      obtain rfl : next = none := by
        cases next with
        | none => rfl
        | some y => exact absurd (hfreed.nextIdle y rfl) (hnext y (by simp))
      exact hsides (hfreed.stats (hinv.pool.mngs b) (hs b)) he

/-- The counters of a pool are what they count, and add up. -/
def StatsRight (m : MemStatusManager) : Prop :=
  m.mps.totalUsedMemSize = sumOf .used (allBufs m.memBlockList) ∧
    m.mps.totalIdleMemSize = sumOf .idle (allBufs m.memBlockList) ∧
    m.mps.totalMemSize =
      m.mps.totalUsedMemSize + m.mps.totalIdleMemSize + m.mps.totalEagerFreeMemSize

instance decidableStatsRight (m : MemStatusManager) : Decidable (StatsRight m) :=
  inferInstanceAs (Decidable (_ ∧ _ ∧ _))

theorem statsRight_of_inv {m : MemStatusManager} (hinv : MngInv m) (h : StatsInv m) :
    StatsRight m := by
  refine ⟨h.used, h.idle, ?_⟩
  rw [h.total, h.used, h.idle, h.eager, ← hinv.sums]
  rfl

theorem bestFit_stats_right {commonSize persistSize : Nat} {ls : List Call} {c : Client}
    (h : Run (fun c l c' => c.Step .plain l c' ∧ CountsRight .plain c l)
      (Client.start commonSize persistSize) ls c) (b : Bool) : StatsRight (c.pool.mng b) := by
  have hinv : ClientInv c ∧ ∀ b, StatsInv (c.pool.mng b) := by
    refine h.state_inv (I := fun c => ClientInv c ∧ ∀ b, StatsInv (c.pool.mng b)) ⟨?_, ?_⟩ ?_
    · exact clientInv_start commonSize persistSize
    · exact Bool.forall_bool.mpr ⟨⟨rfl, rfl, rfl, rfl⟩, ⟨rfl, rfl, rfl, rfl⟩⟩
    · rintro c l c' ⟨hinv, hs⟩ ⟨hstep, hright⟩
      exact ⟨hinv.step splits_isSplit splits_isSplit hstep,
        statsInv_step splits_isSplit splits_isSplit hinv hstep hright hs⟩
  exact statsRight_of_inv (hinv.1.pool.mngs b) (hinv.2 b)

/-- The first allocation, from a block that is larger. -/
theorem split_block_miscounts :
    ∃ c, Run (Client.Step .plain) (Client.start 1073741824 1073741824)
      [.alloc 512 false 0 ⟨1073741824, 4096, 1073741824⟩] c ∧
      c.pool.commonMem.mps.totalIdleMemSize = 0 ∧
      sumOf .idle (allBufs c.pool.commonMem.memBlockList) = 1073741312 ∧
      ¬ StatsRight c.pool.commonMem := by
  have hexec : ((Run.exec (Client.exec .plain) Client.Allowed
      (Client.start 1073741824 1073741824)
      [.alloc 512 false 0 ⟨1073741824, 4096, 1073741824⟩]).map fun c =>
        (c.pool.commonMem.mps.totalIdleMemSize,
          sumOf .idle (allBufs c.pool.commonMem.memBlockList),
          decide (StatsRight c.pool.commonMem))) = some (0, 1073741312, false) := by decide +kernel
  obtain ⟨c, hc, hstats⟩ := Option.map_eq_some_iff.mp hexec
  simp only [Prod.mk.injEq, decide_eq_false_iff_not] at hstats
  exact ⟨c, Run.of_exec hc, hstats⟩

/-- A block of the size that is asked for, taken and given back. -/
theorem bestFit_stats_right_whole :
    ∃ c, Run (fun c l c' => c.Step .plain l c' ∧ CountsRight .plain c l)
      (Client.start 512 512)
      [.alloc 512 false 0 ⟨1073741824, 4096, 512⟩, .free 4096] c ∧ StatsRight c.pool.commonMem := by
  have hexec : (Run.exec (Client.exec .plain) (fun c l => c.Allowed l ∧ CountsRight .plain c l)
      (Client.start 512 512)
      [.alloc 512 false 0 ⟨1073741824, 4096, 512⟩, .free 4096]).isSome := by decide +kernel
  obtain ⟨c, hc⟩ := Option.isSome_iff_exists.mp hexec
  have hrun : Run (fun c l c' => c.Step .plain l c' ∧ CountsRight .plain c l)
      (Client.start 512 512) [.alloc 512 false 0 ⟨1073741824, 4096, 512⟩, .free 4096] c :=
    (Run.of_exec hc).imp fun _ _ _ h => ⟨⟨h.1, h.2.1⟩, h.2.2⟩
  exact ⟨c, hrun, bestFit_stats_right hrun false⟩

end Ccbase.DynamicMem
