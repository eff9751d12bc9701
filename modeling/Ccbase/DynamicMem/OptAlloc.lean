import Ccbase.DynamicMem.OptSees

/-!
# Allocation on the heap and by value

`AllocTensorMem` of the two classes, over states of which one is on a heap and
shows the other. The searches find the same buf, because the vectors have the same
entries in the same order; the rest of it and the new block go to the same place.
-/

namespace Ccbase.DynamicMem

open Ccbase.Lib

/-- The two tests of `DynamicMemPoolBestFitOpt`. -/
def SplitTests.opt : SplitTests :=
  ⟨Opt.isSplit, fun size sourceSize => decide (mulSize size 2 ≤ sourceSize)⟩

theorem splits_opt_find : Splits SplitTests.opt.find := by
  intro size bufSize _ hle hlt h
  have h : 1024 ≤ subSize bufSize size := of_decide_eq_true h
  rw [subSize_eq hlt hle] at h
  omega

theorem splits_opt_create : Splits SplitTests.opt.create := by
  have hbound : sizeBound = 18446744073709551616 := rfl
  have hpow : (2 : Nat) ^ 62 = 4611686018427387904 := rfl
  rintro size bufSize ⟨hpos, hsize⟩ hle hlt h
  have h : mulSize size 2 ≤ bufSize := of_decide_eq_true h
  rw [mulSize_eq (by omega)] at h
  omega

namespace Opt

open DynamicMem.DynamicMemPoolBestFit

/-- The part of the answer that the plain class asks for. -/
def DeviceAnswer.plain (d : DeviceAnswer) : DynamicMem.DeviceAnswer :=
  ⟨d.freeMemSize, d.addr, d.size⟩

namespace DynamicMemPoolBestFitOpt

variable {s s' : DynamicMemPoolBestFitOpt} {p p' : DynamicMemPoolBestFit}
  {ptrs ptrs' : Pointers} {b : Bool}
  {L R : List (DynamicMem.DynamicMemBlock DynamicMem.DynamicMemBuf)}
  {blk : DynamicMem.DynamicMemBlock DynamicMem.DynamicMemBuf}
  {l r bufs : List DynamicMem.DynamicMemBuf} {x : DynamicMem.DynamicMemBuf}

/-! ## One state that shows the other -/

/-- What `p` has by value is what the pointers of `s` lead to. -/
structure Sees (ptrs : Pointers) (s : DynamicMemPoolBestFitOpt) (p : DynamicMemPoolBestFit) :
    Prop where
  list : ∀ b, (s.mng b).memBlockList =
    (p.mng b).memBlockList.map fun blk => ptrs.block blk.deviceAddrBase
  blocks : ∀ b, ∀ blk ∈ (p.mng b).memBlockList, HasBlock ptrs s blk
  streams : ∀ b, ∀ blk ∈ (p.mng b).memBlockList, blk.streamId < 128
  index : ∀ b, HasIndex ptrs.buf (s.mng b).idleMemBufs (sizeMapOf (p.mng b).idleMemBufs)
  memBlocks : ∀ b, (s.mng b).memBlocks.length = 128
  mps : ∀ b, (s.mng b).mps = (p.mng b).mps
  unitSize : ∀ b, (s.mng b).unitSize = (p.mng b).unitSize
  config : s.configUnitSize = p.configUnitSize
  eager : s.isTriggerEagerFree = false

/-- What holds of two pools even while a block is being added. -/
structure Laid (p : DynamicMemPoolBestFit) : Prop where
  placed : ∀ b, Placed DynamicMem.DynamicMemBuf.deviceAddr DynamicMem.DynamicMemBuf.size
    (p.mng b).memBlockList
  inSpace : ∀ b, InSpace (p.mng b).memBlockList
  apart : ∀ b, ∀ blk ∈ (p.mng b).memBlockList, ∀ blk' ∈ (p.mng (!b)).memBlockList,
    Apart blk blk'
  known : ∀ b i, ∀ e ∈ (sizeMapOf (p.mng b).idleMemBufs i).entries,
    ∃ x, InPool p b x ∧ x.deviceAddr = e.2

theorem laid_of_inv (h : PoolInv p) : Laid p where
  placed b := (h.mngs b).placed
  inSpace b := (h.mngs b).inSpace
  apart := h.apart
  known b i e he := by
    obtain ⟨blk, hblk, -, x, hx, -, rfl⟩ :=
      exists_of_mem_idleEntries (((h.mngs b).indexed i).mem_iff.mp he)
    exact ⟨x, mem_allBufs.mpr ⟨blk, hblk, hx⟩, rfl⟩

theorem exists_bool_not {b b' : Bool} (h : b' ≠ b) : b' = !b := by
  cases b <;> cases b' <;> simp_all

namespace Sees

theorem same (h : Sees ptrs s p) (hsame : SamePool p p') : Sees ptrs s p' where
  list b := by rw [(hsame.mngs b).blocks, h.list b]
  blocks b := by
    rw [(hsame.mngs b).blocks]
    exact h.blocks b
  streams b := by
    rw [(hsame.mngs b).blocks]
    exact h.streams b
  index b := (h.index b).of_eq (hsame.mngs b).index
  memBlocks := h.memBlocks
  mps b := by rw [(hsame.mngs b).mps, h.mps b]
  unitSize b := by rw [(hsame.mngs b).unitSize, h.unitSize b]
  config := by rw [hsame.config, h.config]
  eager := h.eager

/-- Blocks at two addresses are two objects. -/
theorem block_ne (h : Sees ptrs s p) {b' : Bool}
    {blk' : DynamicMem.DynamicMemBlock DynamicMem.DynamicMemBuf}
    (hblk : blk ∈ (p.mng b).memBlockList) (hblk' : blk' ∈ (p.mng b').memBlockList)
    (hne : blk'.deviceAddrBase ≠ blk.deviceAddrBase) :
    ptrs.block blk'.deviceAddrBase ≠ ptrs.block blk.deviceAddrBase := by
  intro heq
  obtain ⟨map, hget, -⟩ := (h.blocks b blk hblk).block
  obtain ⟨map', hget', -⟩ := (h.blocks b' blk' hblk').block
  rw [heq, hget] at hget'
  exact hne (congrArg DynamicMemBlock.deviceAddrBase (Option.some.inj hget')).symm

theorem base_ne_other (hlaid : Laid p) {b : Bool}
    {blk blk' : DynamicMem.DynamicMemBlock DynamicMem.DynamicMemBuf}
    (hblk : blk ∈ (p.mng b).memBlockList) (hblk' : blk' ∈ (p.mng (!b)).memBlockList) :
    blk'.deviceAddrBase ≠ blk.deviceAddrBase := by
  have hpos := (hlaid.placed b).pos blk hblk
  have hpos' := (hlaid.placed (!b)).pos blk' hblk'
  rcases hlaid.apart b blk hblk blk' hblk' with hle | hle
  · omega
  · omega

/-- An operation has worked on one block. -/
theorem replace (h : Sees ptrs s p) (hlaid : Laid p)
    (hat : At (p.mng b).memBlockList L blk R l x r)
    (hblocks : (p'.mng b).memBlockList = L ++ blk.setBufs bufs :: R)
    (hunit : (p'.mng b).unitSize = (p.mng b).unitSize) (he : Elsewhere b p p')
    (hw : Within (ptrs.block blk.deviceAddrBase) b s s')
    (hblk : HasBlock ptrs' s' (blk.setBufs bufs))
    (hindex : HasIndex ptrs'.buf (s'.mng b).idleMemBufs (sizeMapOf (p'.mng b).idleMemBufs))
    (hmps : (s'.mng b).mps = (p'.mng b).mps) (hblock : ptrs'.block = ptrs.block)
    (hptr : ∀ b' y, InPool p b' y → ptrs'.buf y.deviceAddr = ptrs.buf y.deviceAddr) :
    Sees ptrs' s' p' := by
  have hmem := Placed.mem_at hat
  obtain ⟨hneL, hneR⟩ := (hlaid.placed b).base_ne hat
  have hmid : ∀ {blk'}, blk' ∈ L ++ R → blk' ∈ (p.mng b).memBlockList := by
    intro blk' hblk'
    rw [hat.blocks]
    rcases List.mem_append.mp hblk' with hblk' | hblk'
    · simp [hblk']
    · simp [hblk']
  -- the other blocks
  have hkeep : ∀ b' blk', blk' ∈ (p.mng b').memBlockList →
      blk'.deviceAddrBase ≠ blk.deviceAddrBase → HasBlock ptrs' s' blk' := by
    intro b' blk' hblk' hne
    have hqne := h.block_ne hmem hblk' hne
    refine (h.blocks b' blk' hblk').frame (by rw [hblock])
      (fun y hy => hptr b' y (mem_allBufs.mpr ⟨blk', hblk', hy⟩)) (hw.blocks _ hqne) fun y hy => ?_
    have hget := (h.blocks b' blk' hblk').bufs y hy
    rw [hget]
    exact hw.bufs _ _ hget hqne
  have hsame : ∀ b', b' ≠ b → s'.mng b' = s.mng b' ∧ SameMng (p.mng b') (p'.mng b') := by
    intro b' hb
    obtain rfl := exists_bool_not hb
    exact ⟨hw.other, he.other⟩
  have hcases : ∀ b', ∀ blk' ∈ (p'.mng b').memBlockList,
      (b' = b ∧ blk' = blk.setBufs bufs) ∨
        (blk' ∈ (p.mng b').memBlockList ∧ blk'.deviceAddrBase ≠ blk.deviceAddrBase) := by
    intro b' blk' hblk'
    by_cases hb : b' = b
    · subst hb
      rw [hblocks] at hblk'
      rcases List.mem_append.mp hblk' with hblk' | hblk'
      · exact Or.inr ⟨hmid (List.mem_append_left _ hblk'), hneL _ hblk'⟩
      · rcases List.mem_cons.mp hblk' with rfl | hblk'
        · exact Or.inl ⟨rfl, rfl⟩
        · exact Or.inr ⟨hmid (List.mem_append_right _ hblk'), hneR _ hblk'⟩
    · rw [(hsame b' hb).2.blocks] at hblk'
      obtain rfl := exists_bool_not hb
      exact Or.inr ⟨hblk', base_ne_other hlaid hmem hblk'⟩
  refine ⟨fun b' => ?_, fun b' blk' hblk' => ?_, fun b' blk' hblk' => ?_, fun b' => ?_,
    fun b' => ?_, fun b' => ?_, fun b' => ?_, ?_, hw.eager.trans h.eager⟩
  · by_cases hb : b' = b
    · subst hb
      rw [hw.list, h.list b', hat.blocks, hblocks, hblock]
      simp only [List.map_append, List.map_cons]
      rfl
    · rw [(hsame b' hb).1, (hsame b' hb).2.blocks, h.list b', hblock]
  · rcases hcases b' blk' hblk' with ⟨-, rfl⟩ | ⟨hold, hne⟩
    · exact hblk
    · exact hkeep b' blk' hold hne
  · rcases hcases b' blk' hblk' with ⟨-, rfl⟩ | ⟨hold, -⟩
    · exact h.streams b blk hmem
    · exact h.streams b' blk' hold
  · by_cases hb : b' = b
    · subst hb
      exact hindex
    · rw [(hsame b' hb).1]
      refine ((h.index b').of_eq (hsame b' hb).2.index).congr fun i e he => ?_
      rw [(hsame b' hb).2.index] at he
      obtain ⟨y, hy, haddr⟩ := hlaid.known b' i e he
      rw [← haddr]
      exact hptr b' y hy
  · by_cases hb : b' = b
    · subst hb
      rw [hw.memBlocks, h.memBlocks]
    · rw [(hsame b' hb).1, h.memBlocks]
  · by_cases hb : b' = b
    · subst hb
      exact hmps
    · rw [(hsame b' hb).1, (hsame b' hb).2.mps, h.mps]
  · by_cases hb : b' = b
    · subst hb
      rw [hw.unitSize, hunit, h.unitSize]
    · rw [(hsame b' hb).1, (hsame b' hb).2.unitSize, h.unitSize]
  · rw [hw.config, he.config, h.config]

end Sees

/-! ## The searches -/

/-- No buf starts where the rest of another one will. -/
theorem Laid.ne_rest (h : Laid p) {size : Nat} (hat : At (p.mng b).memBlockList L blk R l x r)
    (hpos : 0 < size) (hlt : size < x.size) {b' : Bool} {y : DynamicMem.DynamicMemBuf}
    (hy : InPool p b' y) : y.deviceAddr ≠ x.deviceAddr + size := by
  have hblk := Placed.mem_at hat
  have hx := Placed.mem_buf_at hat
  by_cases hb : b' = b
  · subst hb
    have hx' : x ∈ allBufs (p.mng b').memBlockList := mem_allBufs.mpr ⟨blk, hblk, hx⟩
    rcases (h.placed b').eq_or_disjoint hx' hy with rfl | hle | hle
    · omega
    · omega
    · omega
  · obtain rfl := exists_bool_not hb
    obtain ⟨blk', hblk', hy⟩ := mem_allBufs.mp hy
    have hin := (h.placed b).inside hblk hx
    have hin' := (h.placed (!b)).inside hblk' hy
    rcases h.apart b blk hblk blk' hblk' with hle | hle
    · omega
    · omega

theorem mem_of_mem_eraseLowerBound {m : SizeMapMemBuf} {size : Nat} {e : Nat × Nat}
    (he : e ∈ (m.eraseLowerBound size).entries) : e ∈ m.entries :=
  List.eraseP_sublist.mem he

section Search

variable {size streamId : Nat} {d : DeviceAnswer}

/-- The pool with its idle bufs, while an entry of the lower bound is out. -/
theorem hasIndex_erased (h : Sees ptrs s p) (hstream : streamId < 128) {map : SizeMapMemBuf}
    (hmap : map.entries = (sizeMapOf (p.mng b).idleMemBufs streamId).entries.map
      fun e => (e.1, ptrs.buf e.2)) :
    HasIndex ptrs.buf
      ((s.setSizeMap b .idle streamId (map.eraseLowerBound size)).mng b).idleMemBufs
      (Function.update (sizeMapOf (p.mng b).idleMemBufs) streamId
        ((sizeMapOf (p.mng b).idleMemBufs streamId).eraseLowerBound size)) := by
  rw [idleMemBufs_setSizeMap]
  exact (h.index b).set hstream (MultiMap.entries_eraseLowerBound_map hmap size)

theorem findMemBufInSpecifiedMng_sees (h : Sees ptrs s p) (hinv : PoolInv p) (hask : Asked size)
    (hstream : streamId < 128) (b : Bool) {res : Option Nat × DynamicMemPoolBestFit}
    (hres : p.findIn .opt size b streamId = some res) :
    ∃ ptrs' s', s.findMemBufInSpecifiedMng size b .idle streamId =
      .ok (res.1.getD nullptr, s') ∧ Sees ptrs' s' res.2 := by
  obtain ⟨map, hsub, hmap⟩ := (h.index b).subscript hstream
  have hsub : subscript ((s.mng b).container .idle) streamId = .ok map := hsub
  rcases findMemBufInSpecifiedMng_spec splits_opt_find (hinv.mngs b) hask streamId with
    ⟨m', hm', hsame, hnone⟩ | ⟨m', L, blk, R, l, x, r, hm', hblkStream, htaken⟩
  · rw [DynamicMem.DynamicMemPoolBestFit.findIn, hm'] at hres
    cases hres
    refine ⟨ptrs, s, ?_, h.same (samePool_setMng hsame)⟩
    rw [findMemBufInSpecifiedMng, hsub]
    dsimp only [bind, Except.bind]
    rw [MultiMap.lowerBound_map hmap, hnone]
    rfl
  · rw [DynamicMem.DynamicMemPoolBestFit.findIn, hm'] at hres
    cases hres
    subst hblkStream
    have hlaid := laid_of_inv hinv
    have hblkMem := Placed.mem_at htaken.place
    have hblk := h.blocks b blk hblkMem
    obtain ⟨hstart, hend⟩ := end_le_of_at (hlaid.placed b) (hlaid.inSpace b) htaken.place
    obtain ⟨-, -, hrt⟩ := ((hlaid.placed b).tiles_at htaken.place).middle
    have hlt : SplitTests.opt.find size x.size = true → size < x.size :=
      splits_opt_find size x.size hask htaken.fits (by omega)
    have hrest : SplitTests.opt.find size x.size = true → ∀ b' y, InPool p b' y →
        y.deviceAddr ≠ x.deviceAddr + size :=
      fun hsplit b' y hy => hlaid.ne_rest htaken.place hask.1 (hlt hsplit) hy
    have hnew : SplitTests.opt.find size x.size = true → ∀ i, ∀ e ∈ (Function.update
        (sizeMapOf (p.mng b).idleMemBufs) blk.streamId ((sizeMapOf (p.mng b).idleMemBufs
          blk.streamId).eraseLowerBound size) i).entries, e.2 ≠ x.deviceAddr + size := by
      intro hsplit i e he
      have he : e ∈ (sizeMapOf (p.mng b).idleMemBufs i).entries := by
        by_cases hi : i = blk.streamId
        · subst hi
          rw [Function.update_self] at he
          exact mem_of_mem_eraseLowerBound he
        · rw [Function.update_of_ne hi] at he
          exact he
      obtain ⟨y, hy, haddr⟩ := hlaid.known b i e he
      rw [← haddr]
      exact hrest hsplit b y hy
    have hblk₀ : HasBlock ptrs (s.setSizeMap b .idle blk.streamId (map.eraseLowerBound size)) blk :=
      hblk.of_heap (bufs_setSizeMap ..) (blocks_setSizeMap ..)
    obtain ⟨ptrs', s₁, s₂, hs₁, hs₂, hread, hwithin, hblk₂, hindex₂, hmps₂, hblock, hptrs⟩ :=
      divideUse_sees SplitTests.opt.find hblk₀ (hasIndex_erased h hstream hmap)
        htaken.place.bufs htaken.idle hstream hask.1 hlt hstart hend
        (fun y hy => (hrt.bounds hy).1) hnew
    have hlower : map.lowerBound size = some (x.size, ptrs.buf x.deviceAddr) := by
      rw [MultiMap.lowerBound_map hmap, htaken.first]
      rfl
    refine ⟨ptrs', s₂.setMps b (DeviceState.take .idle (takeSize SplitTests.opt.find size x)), ?_,
      ?_⟩
    · rw [findMemBufInSpecifiedMng, hsub]
      dsimp only [bind, Except.bind]
      rw [hlower]
      dsimp only
      rw [hblk.readBuf (Placed.mem_buf_at htaken.place)]
      dsimp only [bufAt]
      rw [show isSplit size x.size = SplitTests.opt.find size x.size from rfl, hs₁]
      dsimp only
      rw [hs₂, hread]
      rfl
    · refine h.replace hlaid htaken.place (by rw [mng_setMng_same]; exact htaken.blocks)
        (by rw [mng_setMng_same]; exact htaken.unitSize) (elsewhere_setMng b m' p)
        (((Within.setSizeMap _ b blk.streamId _ s).trans hwithin).trans (Within.setMps _ b _ s₂))
        (hblk₂.of_heap (bufs_setMps ..) (blocks_setMps ..)) ?_ ?_ hblock fun b' y hy =>
          hptrs _ fun hsplit => hrest hsplit b' y hy
      · rw [idleMemBufs_setMps, mng_setMng_same]
        refine hindex₂.of_eq fun i => ?_
        rw [htaken.index]
        by_cases hi : i = blk.streamId
        · subst hi
          rw [if_pos rfl, Function.update_self, Function.update_self]
        · rw [if_neg hi, Function.update_of_ne hi, Function.update_of_ne hi]
      · rw [mps_setMps, hmps₂, mps_setSizeMap, h.mps, mng_setMng_same, htaken.mps]
        rfl

theorem found_pos (hinv : PoolInv p) {res : Option Nat × DynamicMemPoolBestFit}
    (h : FindResult .opt size streamId p res) {a : Nat} (ha : res.1 = some a) : a ≠ nullptr := by
  rcases h with ⟨hnone, -⟩ | ⟨a', hsome, hfound⟩
  · rw [hnone] at ha
    cases ha
  · rw [hsome] at ha
    cases ha
    cases hfound with
    | mk b hstream h he =>
        exact (end_le_of_at (hinv.mngs b).placed (hinv.mngs b).inSpace h.place).1.ne'

/-- A pool with a null pointer for an address has found nothing. -/
theorem getD_eq_nullptr {a : Option Nat} (h : ∀ a', a = some a' → a' ≠ nullptr) :
    a.getD nullptr = nullptr ↔ a = none := by
  cases a with
  | none => simp
  | some a' => simpa using h a' rfl

theorem persistent_ne_nil (h : Sees ptrs s p) :
    s.persistentMem.memBlockList ≠ [] ↔ p.persistentMem.memBlockList ≠ [] := by
  have hlist : s.persistentMem.memBlockList = p.persistentMem.memBlockList.map
      fun blk => ptrs.block blk.deviceAddrBase := h.list true
  rw [hlist, ne_eq, List.map_eq_nil_iff]

theorem findAvailableMemBuf_sees (h : Sees ptrs s p) (hinv : PoolInv p) (hask : Asked size)
    (hstream : streamId < 128) (b : Bool) (d : DeviceAnswer)
    {res : Option Nat × DynamicMemPoolBestFit}
    (hres : p.findAvailableMemBuf .opt size b streamId = some res) :
    ∃ ptrs' s', s.findAvailableMemBuf size b streamId d = .ok (res.1.getD nullptr, s') ∧
      Sees ptrs' s' res.2 := by
  have hstatus : ∃ ptrs' s', s.findMemBufByStatus size b .idle streamId =
      .ok (res.1.getD nullptr, s') ∧ Sees ptrs' s' res.2 := by
    rw [DynamicMem.DynamicMemPoolBestFit.findAvailableMemBuf] at hres
    obtain ⟨⟨a, p₁⟩, hr₁, hres⟩ := Option.bind_eq_some_iff.mp hres
    obtain ⟨ptrs₁, s₁, hs₁, hsees₁⟩ := findMemBufInSpecifiedMng_sees h hinv hask hstream b hr₁
    obtain ⟨r₁', hr₁', -, hfound⟩ := findIn_spec splits_opt_find hinv hask b streamId
    rw [hr₁] at hr₁'
    cases hr₁'
    have hnull : a.getD nullptr = nullptr ↔ a = none :=
      getD_eq_nullptr fun a' ha' => found_pos hinv hfound ha'
    have hcond : (a.getD nullptr = nullptr ∧ b = true ∧ s₁.persistentMem.memBlockList ≠ []) ↔
        (a = none ∧ b = true ∧ p₁.persistentMem.memBlockList ≠ []) := by
      rw [hnull, persistent_ne_nil hsees₁]
    rw [findMemBufByStatus, hs₁]
    dsimp only [bind, Except.bind] at hres ⊢
    by_cases hc : a = none ∧ b = true ∧ p₁.persistentMem.memBlockList ≠ []
    · rw [if_pos hc] at hres
      rw [if_pos (hcond.mpr hc)]
      have hinv₁ : PoolInv p₁ := by
        rcases hfound with ⟨-, hsame⟩ | ⟨a', hsome, -⟩
        · exact hinv.same hsame
        · rw [hc.1] at hsome
          cases hsome
      exact findMemBufInSpecifiedMng_sees hsees₁ hinv₁ hask hstream (!b) hres
    · rw [if_neg hc] at hres
      cases hres
      rw [if_neg fun hc' => hc (hcond.mp hc')]
      exact ⟨ptrs₁, s₁, rfl, hsees₁⟩
  obtain ⟨ptrs', s', hs', hsees⟩ := hstatus
  refine ⟨ptrs', s', ?_, hsees⟩
  rw [findAvailableMemBuf, hs']
  dsimp only [bind, Except.bind]
  rw [if_neg]
  rintro ⟨-, heager, -⟩
  rw [hsees.eager] at heager
  cases heager

end Search

/-! ## A block is added -/

/-- Two lists under one map, cut by tests that agree. -/
theorem takeWhile_map_of {α β : Type} {f : α → β} {g : β → Bool} {g' : α → Bool} {xs : List α}
    (h : ∀ x ∈ xs, g (f x) = g' x) :
    (xs.map f).takeWhile g = (xs.takeWhile g').map f ∧
      (xs.map f).dropWhile g = (xs.dropWhile g').map f := by
  induction xs with
  | nil => exact ⟨rfl, rfl⟩
  | cons x xs ih =>
      have hx := h x (List.mem_cons_self ..)
      obtain ⟨htake, hdrop⟩ := ih fun y hy => h y (List.mem_cons_of_mem x hy)
      rw [List.map_cons]
      by_cases hg : g' x = true
      · have hgf : g (f x) = true := hx.trans hg
        rw [List.takeWhile_cons_of_pos hgf, List.takeWhile_cons_of_pos hg,
          List.dropWhile_cons_of_pos hgf, List.dropWhile_cons_of_pos hg, htake, hdrop]
        exact ⟨rfl, rfl⟩
      · have hgf : ¬ g (f x) = true := by
          rw [hx]
          exact hg
        rw [List.takeWhile_cons_of_neg hgf, List.takeWhile_cons_of_neg hg,
          List.dropWhile_cons_of_neg hgf, List.dropWhile_cons_of_neg hg]
        exact ⟨rfl, rfl⟩

theorem insertMemBlock_eq (blk : DynamicMem.DynamicMemBlock DynamicMem.DynamicMemBuf) :
    ∀ bs, insertMemBlock blk bs =
      bs.takeWhile (fun b => !decide (blk.deviceAddrBase < b.deviceAddrBase)) ++
        blk :: bs.dropWhile fun b => !decide (blk.deviceAddrBase < b.deviceAddrBase) := by
  intro bs
  induction bs with
  | nil => rfl
  | cons b bs ih =>
      rw [insertMemBlock]
      by_cases hlt : blk.deviceAddrBase < b.deviceAddrBase
      · rw [if_pos hlt, List.takeWhile_cons_of_neg (by simp [hlt]),
          List.dropWhile_cons_of_neg (by simp [hlt])]
        rfl
      · rw [if_neg hlt, List.takeWhile_cons_of_pos (by simp [hlt]),
          List.dropWhile_cons_of_pos (by simp [hlt]), ih]
        rfl

theorem blockAddr_sees (h : Sees ptrs s p) (hblk : blk ∈ (p.mng b).memBlockList) :
    s.blockAddr (ptrs.block blk.deviceAddrBase) = blk.deviceAddrBase := by
  obtain ⟨map, hget, -⟩ := (h.blocks b blk hblk).block
  rw [blockAddr, hget]

section Create

variable {size addr len streamId : Nat}

/-- The pools while a block is there and its buf is not yet in use. -/
def withBlock (addr len streamId : Nat) (b : Bool) (p : DynamicMemPoolBestFit) :
    DynamicMemPoolBestFit :=
  p.setMng b { p.mng b with
    memBlockList := insertMemBlock (wholeBlock addr len streamId) (p.mng b).memBlockList }

theorem inPool_withBlock {b' : Bool} {y : DynamicMem.DynamicMemBuf} (hy : InPool p b' y) :
    InPool (withBlock addr len streamId b p) b' y := by
  by_cases hb : b' = b
  · subst hb
    obtain ⟨blk, hblk, hy⟩ := mem_allBufs.mp hy
    refine mem_allBufs.mpr ⟨blk, ?_, hy⟩
    rw [withBlock, mng_setMng_same]
    exact (perm_insertMemBlock _ _).mem_iff.mpr (List.mem_cons_of_mem _ hblk)
  · obtain rfl := exists_bool_not hb
    rw [InPool, withBlock, mng_setMng_other]
    exact hy

theorem laid_withBlock (hinv : PoolInv p) (hfresh : ∀ b, Fresh addr len (p.mng b).memBlockList)
    (hlen : 0 < len) (streamId : Nat) (b : Bool) : Laid (withBlock addr len streamId b p) := by
  have hlaid := laid_of_inv hinv
  have hmng : (withBlock addr len streamId b p).mng b = { p.mng b with
      memBlockList := insertMemBlock (wholeBlock addr len streamId) (p.mng b).memBlockList } :=
    mng_setMng_same ..
  have hother : (withBlock addr len streamId b p).mng (!b) = p.mng (!b) := mng_setMng_other ..
  have hcross : ∀ blk ∈ insertMemBlock (wholeBlock addr len streamId) (p.mng b).memBlockList,
      ∀ blk' ∈ (p.mng (!b)).memBlockList, Apart blk blk' := by
    intro blk hblk blk' hblk'
    rcases List.mem_cons.mp ((perm_insertMemBlock _ _).mem_iff.mp hblk) with rfl | hblk
    · exact (hfresh (!b)).apart blk' hblk'
    · exact hinv.apart b blk hblk blk' hblk'
  have hpool : ∀ b', Placed DynamicMem.DynamicMemBuf.deviceAddr DynamicMem.DynamicMemBuf.size
      ((withBlock addr len streamId b p).mng b').memBlockList ∧
      InSpace ((withBlock addr len streamId b p).mng b').memBlockList ∧
      ∀ blk ∈ ((withBlock addr len streamId b p).mng b').memBlockList,
        ∀ blk' ∈ ((withBlock addr len streamId b p).mng (!b')).memBlockList, Apart blk blk' := by
    intro b'
    by_cases hb : b' = b
    · subst hb
      rw [hmng, hother]
      exact ⟨placed_insert streamId (hinv.mngs b') (hfresh b') hlen,
        inSpace_insert streamId (hinv.mngs b') (hfresh b'), hcross⟩
    · obtain rfl := exists_bool_not hb
      rw [hother, Bool.not_not, hmng]
      exact ⟨hlaid.placed (!b), hlaid.inSpace (!b), fun blk hblk blk' hblk' =>
        (hcross blk' hblk' blk hblk).symm⟩
  refine ⟨fun b' => (hpool b').1, fun b' => (hpool b').2.1, fun b' => (hpool b').2.2,
    fun b' i e he => ?_⟩
  have he : e ∈ (sizeMapOf (p.mng b').idleMemBufs i).entries := by
    by_cases hb : b' = b
    · subst hb
      rw [hmng] at he
      exact he
    · obtain rfl := exists_bool_not hb
      rw [hother] at he
      exact he
  obtain ⟨y, hy, haddr⟩ := hlaid.known b' i e he
  exact ⟨y, inPool_withBlock hy, haddr⟩

/-- Nothing starts at the address of a new block. -/
theorem addr_ne_fresh (hinv : PoolInv p) (hfresh : ∀ b, Fresh addr len (p.mng b).memBlockList)
    (hlen : 0 < len) (hblk : blk ∈ (p.mng b).memBlockList) :
    blk.deviceAddrBase ≠ addr ∧ ∀ y ∈ blk.blockAllMemBufMap, y.deviceAddr ≠ addr := by
  have hpos := (hinv.mngs b).placed.pos blk hblk
  have hapart := (hfresh b).apart blk hblk
  refine ⟨by omega, fun y hy => ?_⟩
  have hin := (hinv.mngs b).placed.inside hblk hy
  omega

/-- From `s` to `s'`, the next block is in the list of a pool, behind those below it. -/
structure Listed (memBlock : DynamicMemBlock) (b : Bool) (s s' : DynamicMemPoolBestFitOpt) :
    Prop where
  bufs : s'.bufs = s.bufs
  blocks : s'.blocks = s.blocks.new memBlock
  other : s'.mng (!b) = s.mng (!b)
  list : (s'.mng b).memBlockList =
    (s.mng b).memBlockList.takeWhile
        (fun q => !decide (memBlock.deviceAddrBase < s.blockAddr q)) ++
      s.blocks.next :: (s.mng b).memBlockList.dropWhile
        fun q => !decide (memBlock.deviceAddrBase < s.blockAddr q)
  memBlocks : (s'.mng b).memBlocks.length = (s.mng b).memBlocks.length
  idleMemBufs : (s'.mng b).idleMemBufs = (s.mng b).idleMemBufs
  mps : (s'.mng b).mps = (s.mng b).mps
  unitSize : (s'.mng b).unitSize = (s.mng b).unitSize
  config : s'.configUnitSize = s.configUnitSize
  eager : s'.isTriggerEagerFree = s.isTriggerEagerFree

theorem addMemBlock_listed (hstream : streamId < (s.mng b).memBlocks.length)
    (memBlock : DynamicMemBlock) :
    ∃ s', s.addMemBlock memBlock b streamId = .ok s' ∧ Listed memBlock b s s' := by
  rw [addMemBlock, subscript_of_lt hstream]
  dsimp only [bind, Except.bind]
  refine ⟨_, rfl, bufs_setMng .., rfl, ?_, ?_, ?_, ?_, ?_, ?_, ?_, ?_⟩
  · show (s.setMng b _).mng (!b) = _
    rw [mng_setMng, if_neg (by cases b <;> simp)]
  · show ((s.setMng b _).mng b).memBlockList = _
    rw [mng_setMng, if_pos rfl]
  · show ((s.setMng b _).mng b).memBlocks.length = _
    rw [mng_setMng, if_pos rfl]
    exact List.length_set
  · show ((s.setMng b _).mng b).idleMemBufs = _
    rw [mng_setMng, if_pos rfl]
  · show ((s.setMng b _).mng b).mps = _
    rw [mng_setMng, if_pos rfl]
  · show ((s.setMng b _).mng b).unitSize = _
    rw [mng_setMng, if_pos rfl]
  · cases b <;> rfl
  · cases b <;> rfl

/-- The list of the pool is that of the plain class under the pointers. -/
theorem Listed.list_map {map : OrdMap Nat Nat} (h : Sees ptrs s p)
    (hl : Listed ⟨addr, len, streamId, map⟩ b s s')
    (hne : ∀ blk ∈ (p.mng b).memBlockList, blk.deviceAddrBase ≠ addr) :
    (s'.mng b).memBlockList =
      (insertMemBlock (wholeBlock addr len streamId) (p.mng b).memBlockList).map
        fun blk => Function.update ptrs.block addr s.blocks.next blk.deviceAddrBase := by
  have htest : ∀ blk ∈ (p.mng b).memBlockList,
      (!decide (addr < s.blockAddr (ptrs.block blk.deviceAddrBase))) =
        !decide (addr < blk.deviceAddrBase) :=
    fun blk hblk => by rw [blockAddr_sees h hblk]
  obtain ⟨htake, hdrop⟩ := takeWhile_map_of (g := fun q => !decide (addr < s.blockAddr q))
    (f := fun blk : DynamicMem.DynamicMemBlock DynamicMem.DynamicMemBuf =>
      ptrs.block blk.deviceAddrBase) htest
  have hlist : (s'.mng b).memBlockList =
      (s.mng b).memBlockList.takeWhile (fun q => !decide (addr < s.blockAddr q)) ++
        s.blocks.next :: (s.mng b).memBlockList.dropWhile
          fun q => !decide (addr < s.blockAddr q) := hl.list
  have hmap : ∀ {bs : List (DynamicMem.DynamicMemBlock DynamicMem.DynamicMemBuf)},
      bs.Sublist (p.mng b).memBlockList →
      (bs.map fun blk => Function.update ptrs.block addr s.blocks.next blk.deviceAddrBase) =
        bs.map fun blk => ptrs.block blk.deviceAddrBase := by
    intro bs hbs
    exact List.map_congr_left fun blk hblk =>
      Function.update_of_ne (hne blk (hbs.mem hblk)) _ _
  rw [hlist, h.list, htake, hdrop, insertMemBlock_eq, List.map_append, List.map_cons,
    hmap (List.takeWhile_sublist _), hmap (List.dropWhile_sublist _)]
  congr 2
  exact (Function.update_self addr s.blocks.next ptrs.block).symm

/-- The block is there, and the buf that fills it. -/
theorem Listed.sees (h : Sees ptrs s p) (hinv : PoolInv p)
    (hfresh : ∀ b, Fresh addr len (p.mng b).memBlockList) (hlen : 0 < len)
    (hstream : streamId < 128) (hl : Listed ⟨addr, len, streamId, .empty⟩ b s s') :
    Sees ⟨Function.update ptrs.buf addr s.bufs.next, Function.update ptrs.block addr s.blocks.next⟩
      (s'.newMemBuf (bufAt s.blocks.next (wholeBuf addr len)))
      (withBlock addr len streamId b p) := by
  have hmng : (withBlock addr len streamId b p).mng b = { p.mng b with
      memBlockList := insertMemBlock (wholeBlock addr len streamId) (p.mng b).memBlockList } :=
    mng_setMng_same ..
  have hother : (withBlock addr len streamId b p).mng (!b) = p.mng (!b) := mng_setMng_other ..
  -- the blocks are the old ones and the new one
  have hcases : ∀ b', ∀ blk ∈ ((withBlock addr len streamId b p).mng b').memBlockList,
      blk = wholeBlock addr len streamId ∨ blk ∈ (p.mng b').memBlockList := by
    intro b' blk hblk
    by_cases hb : b' = b
    · subst hb
      rw [hmng] at hblk
      exact List.mem_cons.mp ((perm_insertMemBlock _ _).mem_iff.mp hblk)
    · obtain rfl := exists_bool_not hb
      rw [hother] at hblk
      exact Or.inr hblk
  -- on the side of the pointers nothing but the lists has changed
  have hmngs : ∀ b', ((s'.newMemBuf (bufAt s.blocks.next (wholeBuf addr len))).mng b').idleMemBufs =
        (s.mng b').idleMemBufs ∧
      ((s'.newMemBuf (bufAt s.blocks.next (wholeBuf addr len))).mng b').memBlocks.length =
        (s.mng b').memBlocks.length ∧
      ((s'.newMemBuf (bufAt s.blocks.next (wholeBuf addr len))).mng b').mps = (s.mng b').mps ∧
      ((s'.newMemBuf (bufAt s.blocks.next (wholeBuf addr len))).mng b').unitSize =
        (s.mng b').unitSize := by
    intro b'
    rw [mng_newMemBuf]
    by_cases hb : b' = b
    · subst hb
      exact ⟨hl.idleMemBufs, hl.memBlocks, hl.mps, hl.unitSize⟩
    · obtain rfl := exists_bool_not hb
      rw [hl.other]
      exact ⟨rfl, rfl, rfl, rfl⟩
  have hplain : ∀ b', ((withBlock addr len streamId b p).mng b').idleMemBufs =
        (p.mng b').idleMemBufs ∧
      ((withBlock addr len streamId b p).mng b').mps = (p.mng b').mps ∧
      ((withBlock addr len streamId b p).mng b').unitSize = (p.mng b').unitSize := by
    intro b'
    by_cases hb : b' = b
    · subst hb
      rw [hmng]
      exact ⟨rfl, rfl, rfl⟩
    · obtain rfl := exists_bool_not hb
      rw [hother]
      exact ⟨rfl, rfl, rfl⟩
  refine ⟨fun b' => ?_, fun b' blk hblk => ?_, fun b' blk hblk => ?_, fun b' => ?_, fun b' => ?_,
    fun b' => ?_, fun b' => ?_, ?_, ?_⟩
  · rw [mng_newMemBuf]
    by_cases hb : b' = b
    · subst hb
      rw [hmng]
      exact hl.list_map h fun blk hblk => (addr_ne_fresh hinv hfresh hlen hblk).1
    · obtain rfl := exists_bool_not hb
      rw [hother, hl.other, h.list]
      exact List.map_congr_left fun blk hblk =>
        (Function.update_of_ne (addr_ne_fresh hinv hfresh hlen hblk).1 _ _).symm
  · rcases hcases b' blk hblk with rfl | hblk
    · refine ⟨⟨OrdMap.empty.emplace addr s'.bufs.next, ?_, ?_⟩, fun y hy => ?_⟩
      · show (s'.blocks.modify s.blocks.next _).get
          (Function.update ptrs.block addr s.blocks.next addr) = _
        rw [Function.update_self, Heap.get_modify_self, hl.blocks, Heap.get_new_self]
        rfl
      · show [(addr, s'.bufs.next)] = [(addr, Function.update ptrs.buf addr s.bufs.next addr)]
        rw [Function.update_self, hl.bufs]
      · obtain rfl := List.mem_singleton.mp hy
        show (s'.bufs.new _).get (Function.update ptrs.buf addr s.bufs.next addr) =
          some (bufAt (Function.update ptrs.block addr s.blocks.next addr) _)
        rw [Function.update_self, Function.update_self, hl.bufs, Heap.get_new_self]
    · -- an old block does not see the new pointers
      obtain ⟨hbase, haddrs⟩ := addr_ne_fresh hinv hfresh hlen hblk
      have hold := h.blocks b' blk hblk
      obtain ⟨map, hget, -⟩ := hold.block
      refine hold.frame (Function.update_of_ne hbase _ _)
        (fun y hy => Function.update_of_ne (haddrs y hy) _ _) ?_ fun y hy => ?_
      · show (s'.blocks.modify s.blocks.next _).get _ = _
        rw [Heap.get_modify_ne _ _ (Heap.ne_next hget), hl.blocks, Heap.get_new,
          if_neg (Heap.ne_next hget)]
      · show (s'.bufs.new _).get _ = _
        rw [hl.bufs, Heap.get_new, if_neg (Heap.ne_next (hold.bufs y hy))]
  · rcases hcases b' blk hblk with rfl | hblk
    · exact hstream
    · exact h.streams b' blk hblk
  · rw [(hmngs b').1, (hplain b').1]
    refine (h.index b').congr fun i e he => ?_
    obtain ⟨y, hy, haddr⟩ := (laid_of_inv hinv).known b' i e he
    obtain ⟨blk, hblk, hy⟩ := mem_allBufs.mp hy
    rw [← haddr]
    exact Function.update_of_ne ((addr_ne_fresh hinv hfresh hlen hblk).2 y hy) _ _
  · rw [(hmngs b').2.1, h.memBlocks]
  · rw [(hmngs b').2.2.1, (hplain b').2.1, h.mps]
  · rw [(hmngs b').2.2.2, (hplain b').2.2, h.unitSize]
  · show s'.configUnitSize = _
    rw [hl.config, h.config, withBlock, configUnitSize_setMng]
  · show s'.isTriggerEagerFree = false
    rw [hl.eager, h.eager]

theorem createMemBlockAndMemBuf_sees (h : Sees ptrs s p) (hinv : PoolInv p)
    (hfresh : ∀ b, Fresh addr len (p.mng b).memBlockList) (hask : Asked size) (hfits : size ≤ len)
    (hstream : streamId < 128) (b : Bool) {res : Nat × DynamicMem.MemStatusManager}
    (hres : (p.mng b).createMemBlockAndMemBuf SplitTests.opt.create size addr len streamId =
      some res) :
    ∃ ptrs' s', s.createMemBlockAndMemBuf size b addr len .idle streamId = .ok (res.1, s') ∧
      Sees ptrs' s' (p.setMng b res.2) := by
  obtain ⟨m', L, R, hm', hcreated⟩ := createMemBlockAndMemBuf_spec splits_opt_create
    (hinv.mngs b) (hfresh b) hask hfits streamId
  rw [hres] at hm'
  cases hm'
  have hlen : 0 < len := hask.1.trans_le hfits
  obtain ⟨s₁, hs₁, hl⟩ := addMemBlock_listed (b := b)
    (by rw [h.memBlocks]; exact hstream) ⟨addr, len, streamId, .empty⟩
  have hsees := hl.sees h hinv hfresh hlen hstream
  have hlaid := laid_withBlock hinv hfresh hlen streamId b
  have hmng : (withBlock addr len streamId b p).mng b = { p.mng b with
      memBlockList := insertMemBlock (wholeBlock addr len streamId) (p.mng b).memBlockList } :=
    mng_setMng_same ..
  have hother : (withBlock addr len streamId b p).mng (!b) = p.mng (!b) := mng_setMng_other ..
  have hat : At ((withBlock addr len streamId b p).mng b).memBlockList L
      (wholeBlock addr len streamId) R [] (wholeBuf addr len) [] :=
    ⟨by rw [hmng]; exact hcreated.place, rfl⟩
  have hlt : SplitTests.opt.create size (wholeBuf addr len).size = true → size < len :=
    splits_opt_create size len hask hfits (by
      have := (hfresh b).le
      have := (hfresh b).pos
      omega)
  have hrest : SplitTests.opt.create size (wholeBuf addr len).size = true → ∀ b' y,
      InPool (withBlock addr len streamId b p) b' y → y.deviceAddr ≠ addr + size :=
    fun hsplit b' y hy => hlaid.ne_rest hat hask.1 (hlt hsplit) hy
  obtain ⟨ptrs', s₂, s₃, hs₂, hs₃, hread, hwithin, hblk₃, hindex₃, hmps₃, hblock, hptrs⟩ :=
    divideUse_sees SplitTests.opt.create (x := wholeBuf addr len) (l := []) (r := [])
      (hsees.blocks b _ (Placed.mem_at hat)) (hsees.index b) rfl rfl hstream hask.1 hlt
      (hfresh b).pos (hfresh b).le (by simp) fun hsplit i e he => by
        obtain ⟨y, hy, haddr⟩ := hlaid.known b i e he
        rw [← haddr]
        exact hrest hsplit b y hy
  have hptr : Function.update ptrs.buf addr s.bufs.next (wholeBuf addr len).deviceAddr =
      s₁.bufs.next := by
    rw [hl.bufs]
    exact Function.update_self ..
  dsimp only at hs₂ hs₃ hread
  rw [hptr] at hs₂ hs₃ hread
  refine ⟨ptrs', s₃.setMps b fun mps =>
    (mps.addTotal len).addUsed (takeSize SplitTests.opt.create size (wholeBuf addr len)), ?_, ?_⟩
  · have hdivide : divideMemBuf (decide (mulSize size 2 ≤ len)) size s₁.bufs.next b streamId
        (s₁.newMemBuf ⟨addr, s.blocks.next, .idle, len⟩) = .ok s₂ := hs₂
    rw [createMemBlockAndMemBuf]
    dsimp only [bind, Except.bind]
    rw [hs₁]
    dsimp only
    rw [hdivide]
    dsimp only
    rw [hs₃, hread]
    rfl
  · refine hsees.replace hlaid hat (by rw [mng_setMng_same]; exact hcreated.blocks)
      (by rw [mng_setMng_same, hmng]; exact hcreated.unitSize) ⟨?_, ?_⟩
      (hwithin.trans (Within.setMps _ b _ s₃))
      ((by simpa using hblk₃ : HasBlock ptrs' s₃ ((wholeBlock addr len streamId).setBufs
        (takeBufs SplitTests.opt.create size (wholeBuf addr len)))).of_heap
          (bufs_setMps ..) (blocks_setMps ..)) ?_ ?_ hblock
      fun b' y hy => hptrs _ fun hsplit => hrest hsplit b' y hy
    · rw [mng_setMng_other, hother]
      exact SameMng.refl _
    · rw [configUnitSize_setMng, withBlock, configUnitSize_setMng]
    · rw [idleMemBufs_setMps, mng_setMng_same]
      rw [show (wholeBlock addr len streamId).streamId = streamId from rfl, hmng] at hindex₃
      refine hindex₃.of_eq fun i => ?_
      rw [hcreated.index]
      by_cases hi : i = streamId
      · subst hi
        rw [if_pos rfl, Function.update_self]
      · rw [if_neg hi, Function.update_of_ne hi]
    · rw [mps_setMps, hmps₃, mng_setMng_same, hcreated.mps, hsees.mps, hmng]

end Create

/-! ## `AllocTensorMem` -/

theorem and_highBits {n k w : Nat} (hk : k ≤ w) (hn : n < 2 ^ w) :
    n &&& (2 ^ w - 2 ^ k) = n / 2 ^ k * 2 ^ k := by
  have hmask : 2 ^ w - 2 ^ k = (2 ^ (w - k) - 1) * 2 ^ k := by
    rw [Nat.sub_mul, ← Nat.pow_add, Nat.sub_add_cancel hk, Nat.one_mul]
  refine Nat.eq_of_testBit_eq fun i => ?_
  rw [hmask, Nat.testBit_and, Nat.testBit_mul_two_pow, Nat.testBit_mul_two_pow,
    Nat.testBit_two_pow_sub_one, Nat.testBit_div_two_pow]
  by_cases hi : k ≤ i
  · rw [Nat.sub_add_cancel hi]
    by_cases hw : i < w
    · simp [hi, show i - k < w - k by omega]
    · have hbit : n.testBit i = false := Nat.testBit_lt_two_pow
        (hn.trans_le (Nat.pow_le_pow_right (by omega) (by omega)))
      simp [hbit]
  · simp [hi]

/-- The mask does what the division does. -/
theorem alignMemorySize_eq {size : Nat} (h : size ≤ 2 ^ 62) :
    Opt.alignMemorySize size = DynamicMem.alignMemorySize size := by
  have hbound : sizeBound = 18446744073709551616 := rfl
  have hpow : (2 : Nat) ^ 62 = 4611686018427387904 := rfl
  rw [hpow] at h
  rw [Opt.alignMemorySize, DynamicMem.alignMemorySize]
  by_cases hzero : size = 0
  · rw [if_neg (by simpa using hzero), if_pos hzero]
  · rw [if_pos hzero, if_neg hzero,
      addSize_eq (by rw [hbound, kDynamicMemAlignSize]; omega),
      subSize_eq (by rw [hbound, kDynamicMemAlignSize]; omega)
        (by rw [kDynamicMemAlignSize]; omega),
      mulSize_eq (by rw [hbound, kDynamicMemAlignSize]; omega)]
    exact and_highBits (k := 9) (w := 64) (by decide) (by rw [kDynamicMemAlignSize]; omega)

section Alloc

variable {size streamId : Nat} {d : DeviceAnswer}

theorem addMemBlockAndMemBuf_sees (h : Sees ptrs s p) (hinv : PoolInv p) (hask : Asked size)
    (hd : Handed d.plain p) (heager : d.isEnableEagerFree = false) (hstream : streamId < 128)
    (b : Bool) {res : Option Nat × DynamicMemPoolBestFit}
    (hres : p.addMemBlockAndMemBuf .opt size b false streamId d.plain = some res) :
    ∃ ptrs' s', s.addMemBlockAndMemBuf size b false streamId d =
      .ok (res.1.getD nullptr, s') ∧ Sees ptrs' s' res.2 := by
  have hplain : ({ p.commonMem with unitSize := p.configUnitSize } :
      DynamicMem.MemStatusManager) = p.commonMem := by
    rw [← hinv.unit]
  have hplainUnit : ({ p with commonMem := { p.commonMem with unitSize := p.configUnitSize } } :
      DynamicMemPoolBestFit) = p := by
    rw [hplain]
  have hunit : s.commonMem.unitSize = s.configUnitSize := by
    rw [h.config, ← hinv.unit]
    exact h.unitSize false
  have hmng : ({ s.commonMem with unitSize := s.configUnitSize } : MemStatusManager) =
      s.commonMem := by
    rw [← hunit]
  have hoptUnit : ({ s with commonMem := { s.commonMem with unitSize := s.configUnitSize } } :
      DynamicMemPoolBestFitOpt) = s := by
    rw [hmng]
  have hpool : (if b = true ∧ false = false ∧ s.persistentMem.memBlockList ≠ [] then false else b) =
      if b = true ∧ false = false ∧ p.persistentMem.memBlockList ≠ [] then false else b := by
    simp only [persistent_ne_nil h]
  rw [DynamicMem.DynamicMemPoolBestFit.addMemBlockAndMemBuf] at hres
  rw [addMemBlockAndMemBuf]
  dsimp only at hres ⊢
  rw [hpool]
  generalize (if b = true ∧ false = false ∧ p.persistentMem.memBlockList ≠ [] then false else b) =
    b' at hres ⊢
  obtain ⟨n, hn, hres⟩ := Option.bind_eq_some_iff.mp hres
  have hn' : calMemBlockAllocSize (s.mng b').unitSize d.freeMemSize size = some n := by
    rw [h.unitSize]
    exact hn
  rw [if_neg (by rw [h.eager]; decide), hn']
  dsimp only
  by_cases hzero : n = 0
  · rw [if_pos hzero] at hres
    rw [if_pos hzero]
    obtain ⟨ptrs', s', hs', hsees⟩ :=
      findAvailableMemBuf_sees h hinv hask hstream (!b') d hres
    refine ⟨ptrs', s', ?_, hsees⟩
    rw [hs']
    dsimp only [bind, Except.bind]
    by_cases hnull : res.1.getD nullptr = nullptr
    · rw [if_neg (by simpa using hnull), heager, hnull]
      rfl
    · rw [if_pos hnull]
  · rw [if_neg hzero] at hres
    rw [if_neg hzero]
    by_cases hsmall : d.size < size
    · rw [if_pos (show d.plain.size < size from hsmall)] at hres
      cases hres
      rw [if_pos hsmall]
      exact ⟨ptrs, s, rfl, h⟩
    · rw [if_neg (show ¬ d.plain.size < size from hsmall), hplainUnit] at hres
      rw [if_neg hsmall, hoptUnit]
      obtain ⟨r, hr, hres⟩ := Option.bind_eq_some_iff.mp hres
      cases hres
      have hfresh : ∀ b, Fresh d.addr d.size (p.mng b).memBlockList := by
        rcases hd with hd | hd
        · have hd : d.size = 0 := hd
          have := hask.1
          omega
        · exact hd
      exact createMemBlockAndMemBuf_sees h hinv hfresh hask (Nat.le_of_not_lt hsmall) hstream b' hr

/-- `AllocTensorMem` of both classes returns the same address. -/
theorem allocTensorMem_sees (h : Sees ptrs s p) (hinv : PoolInv p) (hsize : size ≤ 2 ^ 62)
    (hd : Handed d.plain p) (heager : d.isEnableEagerFree = false) (hstream : streamId < 128)
    (b : Bool) {res : Option Nat × DynamicMemPoolBestFit}
    (hres : p.allocTensorMem .opt size b false streamId d.plain = some res) :
    ∃ ptrs' s', s.allocTensorMem size b false streamId d = .ok (res.1.getD nullptr, s') ∧
      Sees ptrs' s' res.2 := by
  obtain ⟨hask, -⟩ := asked_alignMemorySize hsize
  rw [DynamicMem.DynamicMemPoolBestFit.allocTensorMem] at hres
  rw [allocTensorMem, alignMemorySize_eq hsize]
  have hplainStream : (if streamId = uint32Max then kDefaultStreamIndex else streamId) =
      streamId := by
    rw [if_neg (by rw [uint32Max]; omega)]
  simp only [hplainStream, Bool.false_and, Bool.false_eq_true, if_false] at hres ⊢
  obtain ⟨⟨a, p₁⟩, hr₁, hres⟩ := Option.bind_eq_some_iff.mp hres
  obtain ⟨ptrs₁, s₁, hs₁, hsees₁⟩ := findAvailableMemBuf_sees h hinv hask hstream b d hr₁
  obtain ⟨r₁', hr₁', -, hfound⟩ := findAvailableMemBuf_spec splits_opt_find hinv hask b streamId
  rw [hr₁] at hr₁'
  cases hr₁'
  rw [hs₁]
  dsimp only [bind, Except.bind] at hres ⊢
  cases a with
  | some a =>
      cases hres
      rw [if_neg (show ¬ (some a).getD nullptr = nullptr from found_pos hinv hfound rfl)]
      exact ⟨ptrs₁, s₁, rfl, hsees₁⟩
  | none =>
      have hsame : SamePool p p₁ := by
        rcases hfound with ⟨-, hsame⟩ | ⟨a', hsome, -⟩
        · exact hsame
        · cases hsome
      rw [if_pos (show (none : Option Nat).getD nullptr = nullptr from rfl)]
      exact addMemBlockAndMemBuf_sees hsees₁ (hinv.same hsame) hask (hd.same hsame) heager hstream
        b hres

end Alloc

end DynamicMemPoolBestFitOpt

end Opt

end Ccbase.DynamicMem
