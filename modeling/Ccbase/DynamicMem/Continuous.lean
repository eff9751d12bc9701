import Ccbase.DynamicMem.Used

/-!
# `AllocContinuousTensorMem`

One buf for the sum of the sizes, which is then replaced by bufs of the sizes. The
sum is accumulated in an `int`, so it is right below `2 ^ 31`. The buf is looked for
again by its address, in the common pool if that has any block at or below the
address; a buf that the allocation took from the persistent pool is not found there.
-/

namespace Ccbase.DynamicMem

open Ccbase.Lib

/-! ## The call -/

/-- A `size_t` that has gone through an `int`. -/
def throughInt (n : Nat) : Nat :=
  if n % 4294967296 < 2147483648 then n % 4294967296
  else n % 4294967296 + (sizeBound - 4294967296)

/-- `std::accumulate` with the start value `0`, which is an `int`. -/
def accumulate (sizeList : List Nat) : Nat :=
  sizeList.foldl (fun acc size => throughInt (addSize acc size)) 0

/-- The bufs for the sizes, one behind the other; the last one has the rest. -/
def continuousBufs (restSize bufAddr : Nat) : List Nat → List DynamicMemBuf
  | [] => []
  | [size] => [{ deviceAddr := bufAddr, status := .used, size := addSize size restSize }]
  | size :: sizes =>
      { deviceAddr := bufAddr, status := .used, size := size } ::
        continuousBufs restSize (addSize bufAddr size) sizes

namespace DynamicMemPoolBestFit

/-- The part of `AllocContinuousTensorMem` behind the allocation: the buf at the address
is found again and replaced. -/
def replaceContinuous (sizeList : List Nat) (totalSize deviceAddr : Nat)
    (p : DynamicMemPoolBestFit) : Option (List Nat × DynamicMemPoolBestFit) := do
  let persistent := (findMemBlock deviceAddr p.commonMem.memBlockList).isNone
  let m := p.mng persistent
  let memBlock ← findMemBlock deviceAddr m.memBlockList
  -- `find` that ends at `end()` is followed all the same
  let (before, memBuf, after) ←
    findBuf DynamicMemBuf.deviceAddr deviceAddr memBlock.blockAllMemBufMap
  let restSize := subSize memBuf.size totalSize
  let bufs := continuousBufs restSize deviceAddr sizeList
  -- the last buf is written to, so there must be one
  if bufs = [] then none
  else
    some (bufs.map DynamicMemBuf.deviceAddr,
      p.setMng persistent
        { m with
          memBlockList := writeBlock memBlock.deviceAddrBase
            (fun b => b.setBufs
              (bufs.foldl (fun map buf => emplaceBuf DynamicMemBuf.deviceAddr buf map)
                (before ++ after)))
            m.memBlockList })

def allocContinuousTensorMem (t : SplitTests) (sizeList : List Nat) (streamId : Nat)
    (d : DeviceAnswer) (p : DynamicMemPoolBestFit) : Option (List Nat × DynamicMemPoolBestFit) := do
  let totalSize := accumulate sizeList
  let (deviceAddr, p) ← p.allocTensorMem t totalSize false false streamId d
  match deviceAddr with
  | none => some ([], p)
  | some a => p.replaceContinuous sizeList totalSize a

end DynamicMemPoolBestFit

/-! ## The sum -/

theorem throughInt_eq {n : Nat} (h : n < 2147483648) : throughInt n = n := by
  rw [throughInt, Nat.mod_eq_of_lt (by omega), if_pos h]

theorem foldl_accumulate {sizes : List Nat} : ∀ {acc : Nat}, acc + sizes.sum < 2147483648 →
    sizes.foldl (fun acc size => throughInt (addSize acc size)) acc = acc + sizes.sum := by
  have hbound : sizeBound = 18446744073709551616 := rfl
  induction sizes with
  | nil =>
      intro acc _
      rfl
  | cons s sizes ih =>
      intro acc h
      rw [List.sum_cons] at h
      rw [List.foldl_cons, addSize_eq (by omega), throughInt_eq (by omega), ih (by omega),
        List.sum_cons]
      omega

/-- A sum below `2 ^ 31` is accumulated right. -/
theorem accumulate_eq {sizes : List Nat} (h : sizes.sum < 2 ^ 31) :
    accumulate sizes = sizes.sum := by
  rw [accumulate, foldl_accumulate (by omega)]
  omega

/-! ## The bufs for the sizes -/

theorem continuousBufs_used {rest : Nat} {sizes : List Nat} : ∀ {a : Nat},
    ∀ y ∈ continuousBufs rest a sizes, y.status = .used := by
  induction sizes with
  | nil =>
      intro a y hy
      cases hy
  | cons s sizes ih =>
      intro a y hy
      cases sizes with
      | nil =>
          obtain rfl := List.mem_singleton.mp hy
          rfl
      | cons s' sizes =>
          rcases List.mem_cons.mp hy with rfl | hy
          · rfl
          · exact ih y hy

/-- The bufs fill the range of the sizes and the rest. -/
theorem tiles_continuousBufs (rest : Nat) {sizes : List Nat} : ∀ {a : Nat}, sizes ≠ [] →
    (∀ s ∈ sizes, 0 < s) → a + sizes.sum + rest ≤ sizeBound → 0 < a →
    Tiles DynamicMemBuf.deviceAddr DynamicMemBuf.size a (continuousBufs rest a sizes)
      (a + sizes.sum + rest) := by
  induction sizes with
  | nil =>
      intro a hne
      exact absurd rfl hne
  | cons s sizes ih =>
      intro a _ hpos hend ha
      have hs := hpos s (List.mem_cons_self ..)
      rw [List.sum_cons] at hend ⊢
      cases sizes with
      | nil =>
          rw [List.sum_nil] at hend ⊢
          rw [continuousBufs, addSize_eq (by omega)]
          refine ⟨rfl, ?_, ?_⟩
          · show 0 < s + rest
            omega
          · show a + (s + rest) = a + (s + 0) + rest
            omega
      | cons s' sizes =>
          have hpos' := hpos s' (by simp)
          rw [List.sum_cons] at hend
          have htail := ih (a := a + s) (by simp) (fun x hx => hpos x (List.mem_cons_of_mem s hx))
            (by rw [List.sum_cons]; omega) (by omega)
          rw [continuousBufs, addSize_eq (by omega)]
          · refine ⟨rfl, hs, ?_⟩
            rw [show a + (s + (s' :: sizes).sum) + rest = a + s + (s' :: sizes).sum + rest by omega]
            exact htail
          · simp

/-- The ranges of the sizes, one behind the other. -/
def rangesFrom (a : Nat) : List Nat → List (Nat × Nat)
  | [] => []
  | size :: sizes => (a, size) :: rangesFrom (a + size) sizes

theorem tiles_rangesFrom {sizes : List Nat} : ∀ {a : Nat}, (∀ s ∈ sizes, 0 < s) →
    Tiles Prod.fst Prod.snd a (rangesFrom a sizes) (a + sizes.sum) := by
  induction sizes with
  | nil =>
      intro a _
      exact (Nat.add_zero a).symm
  | cons s sizes ih =>
      intro a hpos
      rw [List.sum_cons, ← Nat.add_assoc]
      exact ⟨rfl, hpos s (List.mem_cons_self ..), ih fun x hx => hpos x (List.mem_cons_of_mem s hx)⟩

/-- The addresses of the bufs are those of the ranges. -/
theorem map_continuousBufs (rest : Nat) {sizes : List Nat} : ∀ {a : Nat}, 0 < a →
    (∀ s ∈ sizes, 0 < s) → a + sizes.sum + rest ≤ sizeBound →
    (continuousBufs rest a sizes).map DynamicMemBuf.deviceAddr =
      (rangesFrom a sizes).map Prod.fst := by
  induction sizes with
  | nil =>
      intro a _ _ _
      rfl
  | cons s sizes ih =>
      intro a ha hpos hend
      rw [List.sum_cons] at hend
      cases sizes with
      | nil => rfl
      | cons s' sizes =>
          have hpos' := hpos s' (by simp)
          have hadd : addSize a s = a + s := addSize_eq (by rw [List.sum_cons] at hend; omega)
          have htail := ih (a := a + s) (by omega) (fun x hx => hpos x (List.mem_cons_of_mem s hx))
            (by omega)
          rw [continuousBufs, hadd, List.map_cons, htail]
          · rfl
          · simp

theorem zip_rangesFrom {sizes : List Nat} : ∀ {a : Nat},
    ((rangesFrom a sizes).map Prod.fst).zip sizes = rangesFrom a sizes := by
  induction sizes with
  | nil =>
      intro a
      rfl
  | cons s sizes ih =>
      intro a
      rw [rangesFrom, List.map_cons, List.zip_cons_cons, ih]

theorem length_rangesFrom {sizes : List Nat} : ∀ {a : Nat},
    (rangesFrom a sizes).length = sizes.length := by
  induction sizes with
  | nil =>
      intro a
      rfl
  | cons s sizes ih =>
      intro a
      rw [rangesFrom, List.length_cons, List.length_cons, ih]

/-- Every range has a buf of at least its size. -/
theorem exists_continuousBuf (rest : Nat) {sizes : List Nat} : ∀ {a : Nat}, 0 < a →
    (∀ s ∈ sizes, 0 < s) → a + sizes.sum + rest ≤ sizeBound → ∀ e ∈ rangesFrom a sizes,
    ∃ y ∈ continuousBufs rest a sizes, y.deviceAddr = e.1 ∧ e.2 ≤ y.size := by
  induction sizes with
  | nil =>
      intro a _ _ _ e he
      cases he
  | cons s sizes ih =>
      intro a ha hpos hend e he
      rw [List.sum_cons] at hend
      cases sizes with
      | nil =>
          rw [List.sum_nil] at hend
          obtain rfl := List.mem_singleton.mp he
          refine ⟨_, List.mem_singleton.mpr rfl, rfl, ?_⟩
          show s ≤ addSize s rest
          rw [addSize_eq (by omega)]
          omega
      | cons s' sizes =>
          have hpos' := hpos s' (by simp)
          have hadd : addSize a s = a + s := addSize_eq (by rw [List.sum_cons] at hend; omega)
          rw [continuousBufs, hadd]
          · rcases List.mem_cons.mp he with rfl | he
            · exact ⟨_, List.mem_cons_self .., rfl, Nat.le_refl _⟩
            · obtain ⟨y, hy, haddr, hsize⟩ := ih (a := a + s) (by omega)
                (fun x hx => hpos x (List.mem_cons_of_mem s hx)) (by omega) e he
              exact ⟨y, List.mem_cons_of_mem _ hy, haddr, hsize⟩
          · simp

/-! ## A buf is replaced -/

/-- From `m` to `m'`, the used buf `x` has been replaced by others, all in use. -/
structure Replaced (m m' : MemStatusManager) (L : List (DynamicMemBlock DynamicMemBuf))
    (blk : DynamicMemBlock DynamicMemBuf) (R : List (DynamicMemBlock DynamicMemBuf))
    (l : List DynamicMemBuf) (x : DynamicMemBuf) (r bufs : List DynamicMemBuf) : Prop where
  place : At m.memBlockList L blk R l x r
  used : x.status = .used
  allUsed : ∀ y ∈ bufs, y.status = .used
  tiles : Tiles DynamicMemBuf.deviceAddr DynamicMemBuf.size x.deviceAddr bufs
    (x.deviceAddr + x.size)
  blocks : m'.memBlockList = L ++ blk.setBufs (l ++ bufs ++ r) :: R
  mps : m'.mps = m.mps
  unitSize : m'.unitSize = m.unitSize
  index : ∀ s, sizeMapOf m'.idleMemBufs s = sizeMapOf m.idleMemBufs s

section Replace

variable {m m' : MemStatusManager} {L R : List (DynamicMemBlock DynamicMemBuf)}
  {blk : DynamicMemBlock DynamicMemBuf} {l r bufs : List DynamicMemBuf} {x : DynamicMemBuf}

theorem entriesOf_of_used (h : ∀ y ∈ bufs, y.status = .used) : entriesOf bufs = [] := by
  rw [entriesOf, List.filter_eq_nil_iff.mpr fun y hy => by simp [h y hy]]
  rfl

theorem isChain_of_used (h : ∀ y ∈ bufs, y.status = .used) (hl : l.IsChain NotBothIdle)
    (hr : r.IsChain NotBothIdle) (hne : bufs ≠ []) : (l ++ bufs ++ r).IsChain NotBothIdle := by
  have hbusy : ∀ y ∈ bufs, y.status ≠ .idle := fun y hy => by simp [h y hy]
  have hbufs : bufs.IsChain NotBothIdle :=
    (List.pairwise_iff_forall_sublist.mpr fun hsub => notBothIdle_left
      (hbusy _ (hsub.subset (by simp))) _).isChain
  refine List.isChain_append.mpr ⟨List.isChain_append.mpr ⟨hl, hbufs, ?_⟩, hr, ?_⟩
  · intro w _ y hy
    exact notBothIdle_right w (hbusy y (List.mem_of_mem_head? hy))
  · intro w hw y _
    rw [List.getLast?_append_of_ne_nil _ hne] at hw
    exact notBothIdle_left (hbusy w (List.mem_of_getLast? hw)) y

theorem Replaced.inv (hinv : MngInv m) (h : Replaced m m' L blk R l x r bufs) : MngInv m' := by
  obtain ⟨hl, hx, hr⟩ := (hinv.placed.tiles_at h.place).middle
  obtain ⟨hchainl, hchainr, -, -⟩ := isChain_middle (hinv.chain_at h.place)
  have hne : bufs ≠ [] := by
    rintro rfl
    have heq : x.deviceAddr = x.deviceAddr + x.size := h.tiles
    omega
  refine MngInv.replace h.blocks ?_ ?_ (hinv.others h.place.blocks) ?_ ?_ ?_ ?_
  · rw [h.blocks]
    refine hinv.placed.setBufs h.place ?_
    rw [List.append_assoc]
    exact Tiles.append_iff.mpr ⟨x.deviceAddr, hl, Tiles.append_iff.mpr ⟨_, h.tiles, hr⟩⟩
  · rw [h.blocks]
    exact hinv.inSpace.setBufs h.place.blocks _
  · exact isChain_of_used h.allUsed hchainl hchainr hne
  · intro y hy
    rcases List.mem_append.mp hy with hy | hy
    · rcases List.mem_append.mp hy with hy | hy
      · exact hinv.noEager_at h.place y (by simp [hy])
      · simp [h.allUsed y hy]
    · exact hinv.noEager_at h.place y (by simp [hy])
  · rw [h.index]
    have hindex := hinv.indexed_at h.place
    rw [entriesOf_append, entriesOf_cons_busy (by simp [h.used])] at hindex
    rw [entriesOf_append, entriesOf_append, entriesOf_of_used h.allUsed, List.append_nil]
    exact hindex
  · intro s hs
    rw [h.index]
    exact hinv.indexed_other h.place.blocks hs

theorem Replaced.used_iff {y : DynamicMemBuf} (hinv : MngInv m)
    (h : Replaced m m' L blk R l x r bufs) :
    y ∈ allBufs m'.memBlockList ↔ y ∈ allBufs m.memBlockList ∧ y ≠ x ∨ y ∈ bufs := by
  have hothers := hinv.placed.not_mem_others h.place
  rw [allBufs_at h.place, h.blocks, allBufs_setBufs]
  by_cases hyx : y = x
  · subst hyx
    simp only [List.mem_append, not_or] at hothers ⊢
    tauto
  · simp only [List.mem_append, List.mem_cons, hyx, false_or, ne_eq, not_false_eq_true, and_true]
    tauto

end Replace

/-! ## The buf is found again -/

open DynamicMemPoolBestFit

section Pools

variable {p p' : DynamicMemPoolBestFit} {t : SplitTests} {b : Bool}
  {L R : List (DynamicMemBlock DynamicMemBuf)} {blk : DynamicMemBlock DynamicMemBuf}
  {l r : List DynamicMemBuf} {x : DynamicMemBuf} {sizes : List Nat} {size streamId a : Nat}
  {d : DeviceAnswer}

theorem findMemBlock_none {β : Type} {blocks : List (DynamicMemBlock β)}
    (h : ∀ b ∈ blocks, a < b.deviceAddrBase) : findMemBlock a blocks = none := by
  cases hfound : findMemBlock a blocks with
  | none => rfl
  | some b =>
      have hlt := h b (mem_of_findMemBlock hfound)
      have hle := base_le_of_findMemBlock hfound
      omega

theorem findMemBlock_ne_none {blocks : List (DynamicMemBlock DynamicMemBuf)}
    (h : Placed DynamicMemBuf.deviceAddr DynamicMemBuf.size blocks)
    {B : DynamicMemBlock DynamicMemBuf} (hB : B ∈ blocks) (hle : B.deviceAddrBase ≤ a) :
    findMemBlock a blocks ≠ none := by
  cases blocks with
  | nil => cases hB
  | cons C blocks =>
      have hC : C.deviceAddrBase ≤ a := by
        rcases List.mem_cons.mp hB with rfl | hB
        · exact hle
        · have := (List.pairwise_cons.mp h.apart).1 B hB
          omega
      rw [findMemBlock, List.takeWhile_cons_of_pos (by simpa using hC)]
      simp

/-- A buf of the persistent pool is looked for in a common block. -/
def Overlooked (p : DynamicMemPoolBestFit) (b : Bool) (a : Nat) : Prop :=
  b = true ∧ ∃ blk ∈ p.commonMem.memBlockList, blk.deviceAddrBase ≤ a

theorem replaceContinuous_spec (hinv : PoolInv p) (hat : At (p.mng b).memBlockList L blk R l x r)
    (hused : x.status = .used) (hne : sizes ≠ []) (hpos : ∀ s ∈ sizes, 0 < s)
    (hfits : sizes.sum ≤ x.size) (hsafe : ¬ Overlooked p b x.deviceAddr) :
    ∃ p', p.replaceContinuous sizes sizes.sum x.deviceAddr =
        some ((rangesFrom x.deviceAddr sizes).map Prod.fst, p') ∧
      Replaced (p.mng b) (p'.mng b) L blk R l x r
        (continuousBufs (x.size - sizes.sum) x.deviceAddr sizes) ∧
      Elsewhere b p p' := by
  obtain ⟨hstart, hend⟩ := end_le_of_at (hinv.mngs b).placed (hinv.mngs b).inSpace hat
  have hbound : sizeBound = 18446744073709551616 := rfl
  have hfound := findMemBlock_at (hinv.mngs b).placed hat
  have hside : (findMemBlock x.deviceAddr p.commonMem.memBlockList).isNone = b := by
    cases b with
    | false =>
        have hfound : findMemBlock x.deviceAddr p.commonMem.memBlockList = some blk := hfound
        rw [hfound]
        rfl
    | true =>
        rw [findMemBlock_none fun B hB => ?_]
        · rfl
        · by_contra hle
          exact hsafe ⟨rfl, B, hB, Nat.le_of_not_lt hle⟩
  have hrest : subSize x.size sizes.sum = x.size - sizes.sum := subSize_eq (by omega) hfits
  have htiles := tiles_continuousBufs (x.size - sizes.sum) hne hpos
    (show x.deviceAddr + sizes.sum + (x.size - sizes.sum) ≤ sizeBound by omega) hstart
  have hmap := map_continuousBufs (x.size - sizes.sum) hstart hpos (by omega)
  have htiles' : Tiles DynamicMemBuf.deviceAddr DynamicMemBuf.size x.deviceAddr
      (continuousBufs (x.size - sizes.sum) x.deviceAddr sizes) (x.deviceAddr + x.size) := by
    rw [show x.deviceAddr + x.size = x.deviceAddr + sizes.sum + (x.size - sizes.sum) by omega]
    exact htiles
  obtain ⟨hl, hx, hr⟩ := ((hinv.mngs b).placed.tiles_at hat).middle
  have hplaced : (continuousBufs (x.size - sizes.sum) x.deviceAddr sizes).foldl
      (fun map buf => emplaceBuf DynamicMemBuf.deviceAddr buf map) (l ++ r) =
        l ++ continuousBufs (x.size - sizes.sum) x.deviceAddr sizes ++ r := by
    refine emplaceAll_between htiles' (fun y hy => ?_) fun y hy => (hr.bounds hy).1
    have := hl.bounds hy
    omega
  have hbufs : continuousBufs (x.size - sizes.sum) x.deviceAddr sizes ≠ [] := by
    intro hnil
    rw [hnil] at htiles'
    have heq : x.deviceAddr = x.deviceAddr + x.size := htiles'
    omega
  have hwrite := writeBlock_middle
    (fun B => B.setBufs (l ++ continuousBufs (x.size - sizes.sum) x.deviceAddr sizes ++ r))
    (rfl : blk.deviceAddrBase = _) ((hinv.mngs b).placed.base_ne hat).1
    ((hinv.mngs b).placed.base_ne hat).2
  rw [← hat.blocks] at hwrite
  refine ⟨p.setMng b { p.mng b with
      memBlockList := L ++
        blk.setBufs (l ++ continuousBufs (x.size - sizes.sum) x.deviceAddr sizes ++ r) :: R },
    ?_, ?_, elsewhere_setMng b _ p⟩
  · simp only [replaceContinuous, hside, hfound, findBuf_at (hinv.mngs b).placed hat, hrest,
      Option.bind_eq_bind, Option.bind_some, if_neg hbufs, hmap, hplaced, hwrite]
  · rw [mng_setMng_same]
    exact ⟨hat, hused, continuousBufs_used, htiles', rfl, rfl, rfl, fun _ => rfl⟩

/-- The buf of the persistent pool is not in the block that is found. -/
theorem replaceContinuous_overlooked {totalSize : Nat} (hinv : PoolInv p)
    (hx : InPool p b x) (hmiss : Overlooked p b x.deviceAddr) :
    p.replaceContinuous sizes totalSize x.deviceAddr = none := by
  obtain ⟨rfl, B, hB, hle⟩ := hmiss
  cases hfound : findMemBlock x.deviceAddr p.commonMem.memBlockList with
  | none => exact absurd hfound (findMemBlock_ne_none (hinv.mngs false).placed hB hle)
  | some C =>
      have hC : C ∈ (p.mng false).memBlockList := mem_of_findMemBlock hfound
      have hmissing : findBuf DynamicMemBuf.deviceAddr x.deviceAddr C.blockAllMemBufMap = none := by
        refine findBuf_none fun y hy haddr => ?_
        have hb := (hinv.eq_of_addr (mem_allBufs.mpr ⟨C, hC, hy⟩) hx haddr).1
        cases hb
      have hfound' : findMemBlock x.deviceAddr (p.mng false).memBlockList = some C := hfound
      simp only [replaceContinuous, hfound, Option.isNone_some, hfound', Option.bind_eq_bind,
        Option.bind_some, hmissing, Option.bind_none]

/-! ## The whole call -/

/-- The pool in which a buf has come into use. -/
theorem Allocated.pool_eq (hinv : PoolInv p) (hask : Asked size) (hd : Handed d p)
    (h : Allocated t size streamId d p p' a) {b' : Bool} (he : Elsewhere b' p p')
    (hx : UsedIn p' b x) (haddr : x.deviceAddr = a) : b = b' := by
  by_contra hne
  obtain rfl : b = !b' := by
    cases b <;> cases b' <;> simp_all
  have hold : InPool p (!b') x := by
    rw [InPool, ← he.other.blocks]
    exact hx.1
  exact h.addr_ne hinv hask hd hold hx.2 haddr

theorem Allocated.elsewhere (hinv : PoolInv p) (hask : Asked size) (hd : Handed d p)
    (h : Allocated t size streamId d p p' a) (hx : UsedIn p' b x) (haddr : x.deviceAddr = a) :
    Elsewhere b p p' := by
  obtain ⟨b', he⟩ : ∃ b', Elsewhere b' p p' := by
    cases h with
    | taken b' _ _ he => exact ⟨b', he⟩
    | created b' _ _ he => exact ⟨b', he⟩
  rw [h.pool_eq hinv hask hd he hx haddr]
  exact he

theorem findIn_elsewhere {r : Option Nat × DynamicMemPoolBestFit}
    (h : p.findIn t size b streamId = some r) : Elsewhere b p r.2 := by
  obtain ⟨r', -, rfl⟩ := Option.map_eq_some_iff.mp h
  exact elsewhere_setMng b r'.2 p

/-- The common pool has no buf for the request, and the device no block. -/
def FallsBack (size streamId : Nat) (d : DeviceAnswer) (p : DynamicMemPoolBestFit) : Prop :=
  candidate size false streamId p = none ∧
    calMemBlockAllocSize p.commonMem.unitSize d.freeMemSize size = some 0

/-- An allocation from the common pool that ends in the persistent one has fallen back. -/
theorem addMemBlockAndMemBuf_common (hfind : Splits t.find) (hinv : PoolInv p) (hask : Asked size)
    (h : p.addMemBlockAndMemBuf t size false false streamId d = some (some a, p')) :
    Elsewhere false p p' ∨
      calMemBlockAllocSize p.commonMem.unitSize d.freeMemSize size = some 0 ∧
        candidate size true streamId p = some a := by
  simp only [addMemBlockAndMemBuf, hinv.reset, Bool.false_eq_true, false_and, if_false,
    Bool.not_false, Option.bind_eq_bind] at h
  obtain ⟨n, hn, h⟩ := Option.bind_eq_some_iff.mp h
  split at h
  · rename_i hzero
    subst hzero
    -- the search of the persistent pool, and then of the common one
    simp only [findAvailableMemBuf, Bool.not_true, Option.bind_eq_bind] at h
    obtain ⟨⟨a₁, p₁⟩, hr, h⟩ := Option.bind_eq_some_iff.mp h
    obtain ⟨r, hr', hcand, hresult⟩ := findIn_spec hfind hinv hask true streamId
    rw [hr] at hr'
    cases hr'
    split at h
    · rename_i hmiss
      rcases hresult with ⟨-, hsame⟩ | ⟨a', hsome, -⟩
      · exact Or.inl ((findIn_elsewhere h).of_same hsame)
      · rw [hmiss.1] at hsome
        cases hsome
    · cases h
      exact Or.inr ⟨hn, hcand.symm⟩
  · split at h
    · cases h
    · obtain ⟨⟨a₁, m⟩, -, h⟩ := Option.bind_eq_some_iff.mp h
      cases h
      exact Or.inl (elsewhere_setMng false m p)

theorem allocTensorMem_common (hfind : Splits t.find) (hinv : PoolInv p) (hsize : size ≤ 2 ^ 62)
    (h : p.allocTensorMem t size false false streamId d = some (some a, p')) :
    Elsewhere false p p' ∨
      FallsBack (alignMemorySize size) (streamOf streamId) d p ∧
        candidate (alignMemorySize size) true (streamOf streamId) p = some a := by
  obtain ⟨hask, -⟩ := asked_alignMemorySize hsize
  obtain ⟨⟨a₁, p₁⟩, hr, hcand, hresult⟩ := findIn_spec hfind hinv hask false (streamOf streamId)
  have hfirst : p.findAvailableMemBuf t (alignMemorySize size) false (streamOf streamId) =
      some (a₁, p₁) := by
    simp only [findAvailableMemBuf, hr, Option.bind_eq_bind, Option.bind_some, Bool.false_eq_true,
      false_and, and_false, if_false]
  rw [streamOf] at hfirst
  simp only [allocTensorMem, hfirst, Option.bind_eq_bind, Option.bind_some, Bool.false_and,
    Bool.false_eq_true, if_false] at h
  cases a₁ with
  | some a₁ =>
      cases h
      exact Or.inl (findIn_elsewhere hr)
  | none =>
      rcases hresult with ⟨-, hsame⟩ | ⟨a', hsome, -⟩
      · rcases addMemBlockAndMemBuf_common hfind (hinv.same hsame) hask h with he | ⟨hcal, hother⟩
        · exact Or.inl (he.of_same hsame)
        · have hunit : p₁.commonMem.unitSize = p.commonMem.unitSize := (hsame.mngs false).unitSize
          rw [hunit] at hcal
          rw [hsame.candidate_eq] at hother
          exact Or.inr ⟨⟨hcand.symm, hcal⟩, hother⟩
      · cases hsome

/-- The buf for the sum is found in the persistent pool, and then looked for in a common
block that lies below it. -/
def Mislaid (totalSize streamId : Nat) (d : DeviceAnswer) (p : DynamicMemPoolBestFit) : Prop :=
  FallsBack (alignMemorySize totalSize) (streamOf streamId) d p ∧
    ∃ a ∈ candidate (alignMemorySize totalSize) true (streamOf streamId) p,
      ∃ blk ∈ p.commonMem.memBlockList, blk.deviceAddrBase ≤ a

instance decidableMislaid (totalSize streamId : Nat) (d : DeviceAnswer)
    (p : DynamicMemPoolBestFit) : Decidable (Mislaid totalSize streamId d p) :=
  inferInstanceAs (Decidable ((_ ∧ _) ∧ ∃ a ∈ candidate (alignMemorySize totalSize) true
    (streamOf streamId) p, ∃ blk ∈ p.commonMem.memBlockList, blk.deviceAddrBase ≤ a))

/-- What `AllocContinuousTensorMem` returns, and the pools then: nothing, or the ranges of
the sizes in a buf `x` that an allocation has taken. -/
inductive ContinuousResult (t : SplitTests) (sizes : List Nat) (streamId : Nat)
    (d : DeviceAnswer) (p : DynamicMemPoolBestFit) (res : List Nat × DynamicMemPoolBestFit) :
    Prop where
  | empty (hnone : res.1 = []) (hsame : SamePool p res.2)
  | ranges {p₁ : DynamicMemPoolBestFit} {b : Bool} {L R : List (DynamicMemBlock DynamicMemBuf)}
      {blk : DynamicMemBlock DynamicMemBuf} {l r : List DynamicMemBuf} {x : DynamicMemBuf}
      (halloc : Allocated t (alignMemorySize sizes.sum) (streamOf streamId) d p p₁ x.deviceAddr)
      (hfits : sizes.sum ≤ x.size)
      (h : Replaced (p₁.mng b) (res.2.mng b) L blk R l x r
        (continuousBufs (x.size - sizes.sum) x.deviceAddr sizes))
      (he : Elsewhere b p₁ res.2)
      (haddrs : res.1 = (rangesFrom x.deviceAddr sizes).map Prod.fst)

theorem allocContinuousTensorMem_spec (hfind : Splits t.find) (hcreate : Splits t.create)
    (hinv : PoolInv p) (hne : sizes ≠ []) (hpos : ∀ s ∈ sizes, 0 < s)
    (hsum : sizes.sum < 2 ^ 31) (hd : Handed d p) (hsafe : ¬ Mislaid sizes.sum streamId d p) :
    (∀ res, p.allocContinuousTensorMem t sizes streamId d = some res →
      ContinuousResult t sizes streamId d p res) ∧
    ((∀ b, 0 < (p.mng b).unitSize) →
      (p.allocContinuousTensorMem t sizes streamId d).isSome) := by
  have hsize : sizes.sum ≤ 2 ^ 62 := by omega
  obtain ⟨hask, hle⟩ := asked_alignMemorySize hsize
  obtain ⟨hresult, hdefined⟩ := allocTensorMem_spec hfind hcreate hinv hsize hd false streamId
  simp only [allocContinuousTensorMem, accumulate_eq hsum, Option.bind_eq_bind]
  cases hcall : p.allocTensorMem t sizes.sum false false streamId d with
  | none =>
      refine ⟨fun res hres => ?_, fun hunits => ?_⟩
      · cases hres
      · rw [hcall] at hdefined
        cases hdefined hunits
  | some res₁ =>
      obtain ⟨a, p₁⟩ := res₁
      simp only [Option.bind_some]
      rcases hresult _ hcall with ⟨hnone, hsame⟩ | ⟨a', hsome, halloc⟩
      · obtain rfl : a = none := hnone
        refine ⟨fun res hres => ?_, fun _ => rfl⟩
        cases hres
        exact .empty rfl hsame
      · obtain rfl : a = some a' := hsome
        have halloc : Allocated t (alignMemorySize sizes.sum) (streamOf streamId) d p p₁ a' :=
          halloc
        obtain ⟨b, x, hx, rfl, hfits, -⟩ := halloc.usedIn
        have hinv₁ := halloc.inv hfind hcreate hinv hask hd
        obtain ⟨blk, hblk, hxblk⟩ := mem_allBufs.mp hx.1
        obtain ⟨L, R, l, r, hat⟩ := exists_at hblk hxblk
        have hover : ¬ Overlooked p₁ b x.deviceAddr := by
          rintro ⟨rfl, B, hB, hBle⟩
          rcases allocTensorMem_common hfind hinv hsize hcall with he | ⟨hfalls, hcand⟩
          · have hpool := halloc.pool_eq hinv hask hd he hx rfl
            cases hpool
          · refine hsafe ⟨hfalls, x.deviceAddr, hcand, B, ?_, hBle⟩
            have he := halloc.elsewhere hinv hask hd hx rfl
            have hblocks : p₁.commonMem.memBlockList = p.commonMem.memBlockList := he.other.blocks
            rw [← hblocks]
            exact hB
        obtain ⟨p', hp', hrepl, he⟩ := replaceContinuous_spec hinv₁ hat hx.2 hne hpos
          (hle.trans hfits) hover
        simp only [hp']
        refine ⟨fun res hres => ?_, fun _ => rfl⟩
        cases hres
        exact .ranges halloc (hle.trans hfits) hrepl he rfl

/-- The address at which a request falls back to the persistent pool. -/
theorem allocTensorMem_fallsBack (hfind : Splits t.find) (hinv : PoolInv p)
    (hsize : size ≤ 2 ^ 62)
    (hfalls : FallsBack (alignMemorySize size) (streamOf streamId) d p)
    (hcand : candidate (alignMemorySize size) true (streamOf streamId) p = some a) :
    ∃ p₁, p.allocTensorMem t size false false streamId d = some (some a, p₁) ∧
      Elsewhere true p p₁ := by
  obtain ⟨hask, -⟩ := asked_alignMemorySize hsize
  obtain ⟨⟨a₀, p₀⟩, hr₀, hcand₀, hresult₀⟩ :=
    findIn_spec hfind hinv hask false (streamOf streamId)
  obtain rfl : a₀ = none := hcand₀.trans hfalls.1
  have hfirst : p.findAvailableMemBuf t (alignMemorySize size) false (streamOf streamId) =
      some (none, p₀) := by
    simp only [findAvailableMemBuf, hr₀, Option.bind_eq_bind, Option.bind_some,
      Bool.false_eq_true, false_and, and_false, if_false]
  have hsame : SamePool p p₀ := by
    rcases hresult₀ with ⟨-, hsame⟩ | ⟨a', hsome, -⟩
    · exact hsame
    · cases hsome
  obtain ⟨⟨a₁, p₁⟩, hr₁, hcand₁, -⟩ :=
    findIn_spec hfind (hinv.same hsame) hask true (streamOf streamId)
  obtain rfl : a₁ = some a := hcand₁.trans ((hsame.candidate_eq ..).trans hcand)
  have hunit : p₀.commonMem.unitSize = p.commonMem.unitSize := (hsame.mngs false).unitSize
  have hcal := hfalls.2
  rw [← hunit] at hcal
  refine ⟨p₁, ?_, (findIn_elsewhere hr₁).of_same hsame⟩
  have hcal' : calMemBlockAllocSize (p₀.mng false).unitSize d.freeMemSize
      (alignMemorySize size) = some 0 := hcal
  have hsecond : p₀.findAvailableMemBuf t (alignMemorySize size) true (streamOf streamId) =
      some (some a, p₁) := by
    simp only [findAvailableMemBuf, hr₁, Option.bind_eq_bind, Option.bind_some, reduceCtorEq,
      false_and, if_false]
  rw [streamOf] at hfirst hsecond
  simp only [allocTensorMem, hfirst, Option.bind_eq_bind, Option.bind_some, Bool.false_and,
    Bool.false_eq_true, if_false, addMemBlockAndMemBuf, false_and, hcal', if_true,
    Bool.not_false, hsecond]

/-- A buf that is mislaid is not found. -/
theorem allocContinuousTensorMem_mislaid (hfind : Splits t.find) (hcreate : Splits t.create)
    (hinv : PoolInv p) (hsum : sizes.sum < 2 ^ 31) (hd : Handed d p)
    (hmis : Mislaid sizes.sum streamId d p) :
    p.allocContinuousTensorMem t sizes streamId d = none := by
  have hsize : sizes.sum ≤ 2 ^ 62 := by omega
  obtain ⟨hask, -⟩ := asked_alignMemorySize hsize
  obtain ⟨hfalls, a, hcand, B, hB, hle⟩ := hmis
  obtain ⟨p₁, hcall, he⟩ := allocTensorMem_fallsBack hfind hinv hsize hfalls hcand
  rcases (allocTensorMem_spec hfind hcreate hinv hsize hd false streamId).1 _ hcall with
    ⟨hnone, -⟩ | ⟨a', hsome, halloc⟩
  · cases hnone
  · cases hsome
    obtain ⟨b, x, hx, rfl, -, -⟩ := halloc.usedIn
    have hpool := halloc.pool_eq hinv hask hd he hx rfl
    have hblocks : p₁.commonMem.memBlockList = p.commonMem.memBlockList := he.other.blocks
    rw [← hblocks] at hB
    simp only [allocContinuousTensorMem, accumulate_eq hsum, hcall, Option.bind_eq_bind,
      Option.bind_some]
    exact replaceContinuous_overlooked (halloc.inv hfind hcreate hinv hask hd) hx.1
      ⟨hpool, B, hB, hle⟩

/-! ## What is returned -/

/-- The addresses start ranges of the sizes that are consecutive, lie in one block and
meet no buf that was in use. -/
structure ContinuousRanges (sizes : List Nat) (p p' : DynamicMemPoolBestFit)
    (addrs : List Nat) (a : Nat) : Prop where
  length : addrs.length = sizes.length
  consecutive : Tiles Prod.fst Prod.snd a (addrs.zip sizes) (a + sizes.sum)
  inBlock : ∃ b, ∃ blk ∈ (p'.mng b).memBlockList, blk.deviceAddrBase ≤ a ∧
    a + sizes.sum ≤ blk.deviceAddrBase + blk.memBlockSize
  apart : ∀ b y, UsedIn p b y → y.deviceAddr + y.size ≤ a ∨ a + sizes.sum ≤ y.deviceAddr

theorem ContinuousResult.good {res : List Nat × DynamicMemPoolBestFit} (hfind : Splits t.find)
    (hcreate : Splits t.create) (hinv : PoolInv p) (hpos : ∀ s ∈ sizes, 0 < s)
    (hsize : sizes.sum ≤ 2 ^ 62) (hd : Handed d p)
    (h : ContinuousResult t sizes streamId d p res) :
    res.1 = [] ∨ ∃ a, ContinuousRanges sizes p res.2 res.1 a := by
  obtain ⟨hask, -⟩ := asked_alignMemorySize hsize
  cases h with
  | empty hnone => exact Or.inl hnone
  | @ranges p₁ b L R blk l r x halloc hfits h he haddrs =>
      have hinv₁ := halloc.inv hfind hcreate hinv hask hd
      have hx : UsedIn p₁ b x :=
        ⟨mem_allBufs.mpr ⟨blk, Placed.mem_at h.place, Placed.mem_buf_at h.place⟩, h.used⟩
      refine Or.inr ⟨x.deviceAddr, ?_, ?_, ?_, fun b' y hy => ?_⟩
      · rw [haddrs, List.length_map, length_rangesFrom]
      · rw [haddrs, zip_rangesFrom]
        exact tiles_rangesFrom hpos
      · have hin := (hinv₁.mngs b).placed.inside (Placed.mem_at h.place) (Placed.mem_buf_at h.place)
        refine ⟨b, blk.setBufs (l ++ continuousBufs (x.size - sizes.sum) x.deviceAddr sizes ++ r),
          ?_, hin.1, ?_⟩
        · rw [h.blocks]
          exact List.mem_append_right _ (List.mem_cons_self ..)
        · show x.deviceAddr + sizes.sum ≤ blk.deviceAddrBase + blk.memBlockSize
          omega
      · have hne := halloc.addr_ne hinv hask hd hy.1 hy.2
        rcases hinv₁.disjoint (halloc.keeps hy.1 hy.2) hx.1 with ⟨-, heq⟩ | hdisj
        · exact absurd (by rw [heq]) hne
        · omega

end Pools

end Ccbase.DynamicMem
