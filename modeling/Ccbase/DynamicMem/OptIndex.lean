import Ccbase.DynamicMem.OptSteps
import Ccbase.Lib.Run

/-!
# Subscripts of the vectors

The vectors by stream have 128 elements in a new pool. `ReleaseDeviceRes` leaves all of
them empty, and an eager free those of the idle bufs, and nothing makes them longer
again. So a subscript is past the end for every stream from 128 on, and for every
stream behind a release or an eager free.
-/

namespace Ccbase.DynamicMem.Opt

open Ccbase.Lib

namespace DynamicMemPoolBestFitOpt

variable {s s' : DynamicMemPoolBestFitOpt} {b : Bool} {a i n p q size streamId : Nat} {x : Place}
  {d : DeviceAnswer}

/-! ## The invariant -/

/-- Blocks and eager bufs of both pools have `n` streams, and idle bufs have `i`. -/
structure Inv (n i : Nat) (s : DynamicMemPoolBestFitOpt) : Prop where
  memBlocks : ∀ b, (s.mng b).memBlocks.length = n
  eagerFree : ∀ b, (s.mng b).eagerFreeMemBufs.length = n
  idle : ∀ b, (s.mng b).idleMemBufs.length = i
  new_or_cleared : n = 128 ∨ n = 0
  all_or_none : i = n ∨ i = 0
  streams : Streams s
  owned : Owned s
  quiet : i ≠ 0 → Quiet s

theorem inv_fresh (recycled : Bool) (commonSize persistSize : Nat) :
    Inv 128 128 (fresh recycled commonSize persistSize) where
  memBlocks b := by cases b <;> exact List.length_replicate
  eagerFree b := by cases b <;> exact List.length_replicate
  idle b := by cases b <;> exact List.length_replicate
  new_or_cleared := Or.inl rfl
  all_or_none := Or.inl rfl
  streams b q hq := by cases b <;> cases hq
  owned b q hq := by cases b <;> cases hq
  quiet _ := by
    refine ⟨fun p x hx => (by cases hx), fun b map hmap => ?_⟩
    have hmap : map ∈ List.replicate 128 (MultiMap.empty : SizeMapMemBuf) := by
      cases b <;> exact hmap
    rw [List.eq_of_mem_replicate hmap]
    rfl

/-- Writes that do not give the status of an eager free. -/
theorem Inv.writes (h : Inv n i s) (hw : Writes (· ≠ .eagerFree) s s') : Inv n i s' where
  memBlocks b := (hw.memBlocks b).trans (h.memBlocks b)
  eagerFree b := (hw.container b .eagerFree).trans (h.eagerFree b)
  idle b := (hw.container b .idle).trans (h.idle b)
  new_or_cleared := h.new_or_cleared
  all_or_none := h.all_or_none
  streams := hw.streams h.streams
  owned := hw.owned h.owned
  quiet hi := hw.quiet (h.quiet hi)

theorem Inv.rest (h : Inv n i s) (hbufs : s'.bufs = s.bufs) (hblocks : s'.blocks = s.blocks)
    (hmng : ∀ b, ∃ u mps, s'.mng b = { s.mng b with unitSize := u, mps := mps }) :
    Inv n i s' :=
  h.writes (.of_write (.rest s' hbufs hblocks hmng))

theorem Inv.full (h : Inv n i s) (hi : i ≠ 0) : Full (· ≠ .eagerFree) s := by
  refine ⟨h.streams, fun st b => ?_, (h.quiet hi).bufs⟩
  have hidle : (s.mng b).idleMemBufs.length = n := by
    rw [h.idle]
    exact h.all_or_none.resolve_right hi
  rw [h.memBlocks]
  cases st with
  | idle => exact hidle.ge
  | used => exact (h.eagerFree b).ge
  | eagerFree => exact (h.eagerFree b).ge

/-! ## Eager free -/

/-- A pool in the middle of an eager free, or behind one: what it finds from then on is
not idle. -/
structure Behind (n : Nat) (s : DynamicMemPoolBestFitOpt) : Prop where
  memBlocks : ∀ b, (s.mng b).memBlocks.length = n
  eagerFree : ∀ b, (s.mng b).eagerFreeMemBufs.length = n
  streams : Streams s
  owned : Owned s
  entries : Entries (· ≠ .idle) .eagerFree s

theorem Behind.writes (h : Behind n s) (hw : Writes (· ≠ .idle) s s') : Behind n s' where
  memBlocks b := (hw.memBlocks b).trans (h.memBlocks b)
  eagerFree b := (hw.container b .eagerFree).trans (h.eagerFree b)
  streams := hw.streams h.streams
  owned := hw.owned h.owned
  entries := hw.entries h.entries

theorem Behind.ready (h : Behind n s) : Ready (· ≠ .idle) s := by
  refine ⟨h.streams, fun st hidle hused b => ?_⟩
  rw [h.memBlocks]
  cases st with
  | idle => exact absurd rfl hidle
  | used => exact absurd rfl hused
  | eagerFree => exact (h.eagerFree b).ge

theorem Inv.behind (h : Inv n i s) (hi : i ≠ 0) : Behind n s where
  memBlocks := h.memBlocks
  eagerFree := h.eagerFree
  streams := h.streams
  owned := h.owned
  entries b map hmap e he := by
    rw [(h.quiet hi).entries b map hmap] at he
    cases he

/-- `idle_mem_bufs_.clear()`. -/
theorem Behind.dropIdle (h : Behind n s) (b : Bool) :
    Behind n (s.setMng b { s.mng b with idleMemBufs := [] }) := by
  have hsame : ∀ b', ((s.setMng b { s.mng b with idleMemBufs := [] }).mng b').memBlocks =
        (s.mng b').memBlocks ∧
      ((s.setMng b { s.mng b with idleMemBufs := [] }).mng b').memBlockList =
        (s.mng b').memBlockList ∧
      ((s.setMng b { s.mng b with idleMemBufs := [] }).mng b').eagerFreeMemBufs =
        (s.mng b').eagerFreeMemBufs := by
    intro b'
    rw [mng_setMng]
    split
    · rename_i hb
      rw [hb]
      exact ⟨rfl, rfl, rfl⟩
    · exact ⟨rfl, rfl, rfl⟩
  refine ⟨fun b' => ?_, fun b' => ?_, fun b' q hq => ?_, fun b' q hq => ?_,
    fun b' map hmap e he y hy => ?_⟩
  · rw [(hsame b').1]
    exact h.memBlocks b'
  · rw [(hsame b').2.2]
    exact h.eagerFree b'
  · rw [(hsame b').2.1] at hq
    rw [(hsame b').1, blocks_setMng]
    exact h.streams b' q hq
  · rw [(hsame b').2.1] at hq
    rw [blocks_setMng, bufs_setMng]
    exact h.owned b' q hq
  · change map ∈ ((s.setMng b { s.mng b with idleMemBufs := [] }).mng b').eagerFreeMemBufs at hmap
    rw [(hsame b').2.2] at hmap
    rw [bufs_setMng] at hy
    exact h.entries b' map hmap e he y hy

theorem eagerFreeMem_in (h : Behind n s) :
    InBounds (fun s' => Behind n s' ∧ ∀ b', (s'.mng b').idleMemBufs.length =
      if b' = b then 0 else (s.mng b').idleMemBufs.length) (s.eagerFreeMem b) := by
  have hloop : InBounds (Writes (· ≠ .idle) s)
      (((s.mng b).idleMemBufs.flatMap MultiMap.entries).foldlM (fun s e => do
        let memBuf ← s.readBuf e.2
        s.combineMemBuf memBuf.deviceAddr .idle .eagerFree) s) := by
    refine Ends.foldlM (fun s' hs' e _ => ?_) (.refl s)
    refine readBuf_in.bind fun y _ => ?_
    exact (combineMemBuf_in (h.writes hs').ready (by decide) (by decide)).mono
      fun s'' hs'' => hs'.trans hs''
  refine hloop.bind fun s₁ hs₁ => ⟨(h.writes hs₁).dropIdle b, fun b' => ?_⟩
  rw [mng_setMng]
  split
  · rfl
  · exact hs₁.container b' .idle

theorem freeIdleMemsByEagerFree_in (h : Behind n s) :
    InBounds (fun s' => Behind n s' ∧ ∀ b, (s'.mng b).idleMemBufs.length = 0)
      s.freeIdleMemsByEagerFree := by
  refine (eagerFreeMem_in h).bind fun s₁ hs₁ => ?_
  refine (eagerFreeMem_in hs₁.1).mono fun s₂ hs₂ => ⟨hs₂.1, fun b => ?_⟩
  rw [hs₂.2, hs₁.2]
  cases b <;> rfl

theorem addMemBlockAndMemBufByEagerFree_in (h : Inv n i s) (hi : streamId < i) :
    InBounds (fun r => ∃ j, Inv n j r.2)
      (s.addMemBlockAndMemBufByEagerFree size b streamId d) := by
  have hn : streamId < n := by
    rcases h.all_or_none with rfl | rfl
    · exact hi
    · omega
  rw [addMemBlockAndMemBufByEagerFree]
  split
  · exact ⟨i, h⟩
  · refine (freeIdleMemsByEagerFree_in (h.behind (by omega))).bind fun s₁ hs₁ => ?_
    obtain ⟨hs₁, hidle⟩ := hs₁
    have hend : ∀ s', Writes (· ≠ .idle) s₁ s' → ∃ j, Inv n j s' := by
      intro s' hw
      have hs' := hs₁.writes hw
      exact ⟨0, hs'.memBlocks, hs'.eagerFree, fun b => (hw.container b .idle).trans (hidle b),
        h.new_or_cleared, Or.inr rfl, hs'.streams, hs'.owned, fun hne => absurd rfl hne⟩
    have hvec : ∀ b, streamId < (s₁.mng b).eagerFreeMemBufs.length := by
      intro b
      rw [hs₁.eagerFree]
      exact hn
    have hblocks : ∀ b, streamId < (s₁.mng b).memBlocks.length := by
      intro b
      rw [hs₁.memBlocks]
      exact hn
    refine (findMemBufByStatus_in hs₁.ready (by decide) hs₁.entries hvec hblocks).bind
      fun r hr => ?_
    obtain ⟨addr, s₂⟩ := r
    dsimp only
    split
    · exact hend s₂ hr
    · split
      · exact hend s₂ hr
      · refine (createMemBlockAndMemBuf_in (hs₁.writes hr).ready (by decide) (by decide) ?_).mono
          fun r' hr' => hend r'.2 (hr.trans hr')
        rw [hr.memBlocks]
        exact hblocks b

/-! ## Allocation -/

theorem findAvailableMemBuf_in (h : Inv n i s) (hi : streamId < i) :
    InBounds (fun r => Inv n i r.2) (s.findAvailableMemBuf size b streamId d) := by
  have hfull := h.full (by omega)
  have hentries : ∀ {st : DynamicMemBufStatus} {s' : DynamicMemPoolBestFitOpt},
      Writes (· ≠ .eagerFree) s s' → Entries (· ≠ .eagerFree) st s' :=
    fun hw b map _ e _ => (hfull.writes hw).bufs e.2
  have hn : streamId < n := by
    rcases h.all_or_none with rfl | rfl
    · exact hi
    · omega
  have hblocks : ∀ b, streamId < (s.mng b).memBlocks.length := by
    intro b
    rw [h.memBlocks]
    exact hn
  have hvec : ∀ st b, streamId < ((s.mng b).container st).length :=
    fun st b => (hblocks b).trans_le (hfull.vectors st b)
  refine (findMemBufByStatus_in hfull.ready (by decide) (hentries (.refl s)) (hvec .idle)
    hblocks).bind fun r hr => ?_
  obtain ⟨addr, s₁⟩ := r
  dsimp only
  split
  · refine (findMemBufByStatus_in (hfull.writes hr).ready (by decide) (hentries hr)
      (fun b => ?_) (fun b => ?_)).mono fun r' hr' => h.writes (hr.trans hr')
    · rw [hr.container]
      exact hvec .eagerFree b
    · rw [hr.memBlocks]
      exact hblocks b
  · exact h.writes hr

theorem addMemBlockAndMemBuf_in {needRecycle : Bool} (h : Inv n i s) (hi : streamId < i) :
    InBounds (fun r => ∃ j, Inv n j r.2)
      (s.addMemBlockAndMemBuf size b needRecycle streamId d) := by
  rw [addMemBlockAndMemBuf]
  generalize (if b = true ∧ needRecycle = false ∧ s.persistentMem.memBlockList ≠ [] then false
    else b) = b'
  dsimp only
  split
  · exact addMemBlockAndMemBufByEagerFree_in h hi
  · cases calMemBlockAllocSize (s.mng b').unitSize d.freeMemSize size with
    | none => exact fun h => by cases h
    | some allocMemSize =>
        dsimp only
        split
        · refine (findAvailableMemBuf_in h hi).bind fun r hr => ?_
          obtain ⟨addr, s₁⟩ := r
          dsimp only
          split
          · exact ⟨i, hr⟩
          · split
            · exact addMemBlockAndMemBufByEagerFree_in
                (hr.rest rfl rfl fun b => ⟨_, _, rfl⟩) hi
            · exact ⟨i, hr⟩
        · split
          · exact ⟨i, h⟩
          · have hunit : Inv n i
                { s with commonMem := { s.commonMem with unitSize := s.configUnitSize } } :=
              h.rest rfl rfl fun b => by cases b <;> exact ⟨_, _, rfl⟩
            have hlt : streamId < (({ s with
                commonMem := { s.commonMem with unitSize := s.configUnitSize } } :
                  DynamicMemPoolBestFitOpt).mng b').memBlocks.length := by
              rw [hunit.memBlocks]
              rcases h.all_or_none with rfl | rfl
              · exact hi
              · omega
            exact (createMemBlockAndMemBuf_in (hunit.full (by omega)).ready (by decide)
              (by decide) hlt).mono fun r hr => ⟨i, hunit.writes hr⟩

theorem allocTensorMem_in {needRecycle : Bool} (h : Inv n i s) (hi : streamId < i) :
    InBounds (fun r => ∃ j, Inv n j r.2) (s.allocTensorMem size b needRecycle streamId d) := by
  refine (findAvailableMemBuf_in h hi).bind fun r hr => ?_
  obtain ⟨addr, s₁⟩ := r
  have hflag : Inv n i (if needRecycle && !s₁.initRecycleMemory then
      { s₁ with initRecycleMemory := true } else s₁) := by
    split
    · exact hr.rest rfl rfl fun b => ⟨_, _, rfl⟩
    · exact hr
  dsimp only
  generalize (if (needRecycle && !s₁.initRecycleMemory) = true then
    { s₁ with initRecycleMemory := true } else s₁) = s₂ at hflag ⊢
  generalize (if (needRecycle && !s₁.initRecycleMemory) = true then nullptr else addr) = addr'
  split
  · exact addMemBlockAndMemBuf_in hflag hi
  · exact ⟨i, hflag⟩

theorem allocContinuousTensorMem_in {sizeList : List Nat} (h : Inv n i s) (hi : streamId < i) :
    InBounds (fun r => ∃ j, Inv n j r.2) (s.allocContinuousTensorMem sizeList streamId d) := by
  refine (allocTensorMem_in h hi).bind fun r hr => ?_
  obtain ⟨addr, s₁⟩ := r
  obtain ⟨j, hr⟩ := hr
  dsimp only
  split
  · exact ⟨j, hr⟩
  · exact (replaceContinuous_in (by decide)).mono fun r' hr' => ⟨j, hr.writes hr'⟩

/-! ## The calls -/

/-- The stream is below the length of the vectors. A call without one is made before
they are emptied, or has nothing to do. -/
def Meets (s : DynamicMemPoolBestFitOpt) : PoolCall → Prop
  | .allocTensorMem _ _ _ streamId _ => streamId < s.commonMem.idleMemBufs.length
  | .allocContinuousTensorMem _ streamId _ => streamId < s.commonMem.idleMemBufs.length
  | .freeTensorMem a => s.commonMem.idleMemBufs ≠ [] ∨ s.findByAddr a = none
  | .freePartTensorMems freeAddrs keeps =>
      s.commonMem.idleMemBufs ≠ [] ∨ (∀ a ∈ freeAddrs, s.findByAddr a = none) ∧ keeps = []
  | .setMemAllocUintSize _ _ => True
  | .releaseDeviceRes => True

instance decidableMeets (s : DynamicMemPoolBestFitOpt) (c : PoolCall) : Decidable (Meets s c) :=
  match c with
  | .allocTensorMem _ _ _ streamId _ =>
      inferInstanceAs (Decidable (streamId < s.commonMem.idleMemBufs.length))
  | .allocContinuousTensorMem _ streamId _ =>
      inferInstanceAs (Decidable (streamId < s.commonMem.idleMemBufs.length))
  | .freeTensorMem a =>
      inferInstanceAs (Decidable (s.commonMem.idleMemBufs ≠ [] ∨ s.findByAddr a = none))
  | .freePartTensorMems freeAddrs keeps => inferInstanceAs (Decidable
      (s.commonMem.idleMemBufs ≠ [] ∨ (∀ a ∈ freeAddrs, s.findByAddr a = none) ∧ keeps = []))
  | .setMemAllocUintSize _ _ => inferInstanceAs (Decidable True)
  | .releaseDeviceRes => inferInstanceAs (Decidable True)

/-- What is kept is part of a buf that is freed. -/
def KeepsFreed (s : DynamicMemPoolBestFitOpt) : PoolCall → Prop
  | .freePartTensorMems freeAddrs keeps =>
      ∀ k ∈ keeps, ∃ a ∈ freeAddrs, ∃ x, s.findByAddr a = some x ∧
        ∃ y, s.bufs.get x.memBuf = some y ∧ y.deviceAddr ≤ k.1 ∧
          k.1 + k.2 ≤ y.deviceAddr + y.size
  | _ => True

theorem freeTensorMem_missing (h : s.findByAddr a = none) : s.freeTensorMem a = .ok s := by
  rw [freeTensorMem, combineMemBuf, h]

theorem freePartTensorMems_missing {freeAddrs : List Nat}
    (h : ∀ a ∈ freeAddrs, s.findByAddr a = none) : s.freePartTensorMems freeAddrs [] = .ok s := by
  have hfrees : freeAddrs.foldlM (fun s a => freeTensorMem a s) s = .ok s := by
    induction freeAddrs with
    | nil => rfl
    | cons a as ih =>
        rw [List.foldlM_cons, freeTensorMem_missing (h a (List.mem_cons_self ..))]
        exact ih fun a' ha' => h a' (List.mem_cons_of_mem _ ha')
  rw [freePartTensorMems, hfrees]
  rfl

theorem mng_destroyBlock (b : Bool) (q : Nat) (s : DynamicMemPoolBestFitOpt) :
    (s.destroyBlock q).mng b = s.mng b := by
  rw [destroyBlock]
  split <;> rfl

theorem mng_foldl_destroyBlock (b : Bool) (qs : List Nat) :
    ∀ s : DynamicMemPoolBestFitOpt, (qs.foldl destroyBlock s).mng b = s.mng b := by
  induction qs with
  | nil => exact fun _ => rfl
  | cons q qs ih =>
      intro s
      rw [List.foldl_cons, ih, mng_destroyBlock]

theorem mng_clearMng (b b' : Bool) (s : DynamicMemPoolBestFitOpt) :
    (s.clearMng b).mng b' = if b' = b then (s.mng b).clear else s.mng b' := by
  rw [clearMng, mng_setMng]
  split
  · rfl
  · exact mng_foldl_destroyBlock ..

theorem inv_releaseDeviceRes (s : DynamicMemPoolBestFitOpt) : Inv 0 0 s.releaseDeviceRes := by
  have hclear : ∀ b, s.releaseDeviceRes.mng b = (s.mng b).clear := by
    intro b
    rw [releaseDeviceRes, mng_clearMng, mng_clearMng]
    cases b
    · rw [if_neg (by decide), mng_clearMng, if_pos rfl]
    · rw [if_pos rfl, if_neg (by decide)]
  refine ⟨fun b => ?_, fun b => ?_, fun b => ?_, Or.inr rfl, Or.inl rfl, fun b q hq => ?_,
    fun b q hq => ?_, fun h => absurd rfl h⟩
  · rw [hclear]
    rfl
  · rw [hclear]
    rfl
  · rw [hclear]
    rfl
  · rw [hclear] at hq
    cases hq
  · rw [hclear] at hq
    cases hq

/-- A call under its condition stays in bounds. -/
theorem call_in {c : PoolCall} (h : Inv n i s) (hc : Meets s c) :
    InBounds (fun s' => ∃ n i, Inv n i s') (s.call c) := by
  have hlen : s.commonMem.idleMemBufs.length = i := h.idle false
  have hne : s.commonMem.idleMemBufs ≠ [] → i ≠ 0 := by
    intro hne hi
    rw [hi] at hlen
    exact hne (List.eq_nil_of_length_eq_zero hlen)
  cases c with
  | allocTensorMem size b needRecycle streamId d =>
      have hi : streamId < i := hlen ▸ hc
      exact (allocTensorMem_in h hi).map fun r hr => ⟨n, hr⟩
  | allocContinuousTensorMem sizeList streamId d =>
      have hi : streamId < i := hlen ▸ hc
      exact (allocContinuousTensorMem_in h hi).map fun r hr => ⟨n, hr⟩
  | freeTensorMem a =>
      rcases hc with hc | hc
      · exact (freeTensorMem_in (h.full (hne hc)) (by decide)).mono
          fun s' hs' => ⟨n, i, h.writes hs'⟩
      · rw [call, freeTensorMem_missing hc]
        exact ⟨n, i, h⟩
  | freePartTensorMems freeAddrs keeps =>
      rcases hc with hc | ⟨hc, rfl⟩
      · exact (freePartTensorMems_in (h.full (hne hc)) (by decide) (by decide)).mono
          fun s' hs' => ⟨n, i, h.writes hs'⟩
      · rw [call, freePartTensorMems_missing hc]
        exact ⟨n, i, h⟩
  | setMemAllocUintSize commonSize persistSize =>
      exact ⟨n, i, h.rest rfl rfl fun b => by cases b <;> exact ⟨_, _, rfl⟩⟩
  | releaseDeviceRes => exact ⟨0, 0, inv_releaseDeviceRes s⟩

/-! ## Past the end -/

theorem subscript_of_le {α : Type} {v : List α} (h : v.length ≤ i) :
    subscript v i = .error .index := by
  rw [subscript, List.getElem?_eq_none h]

theorem allocTensorMem_index {needRecycle : Bool} (h : (s.mng b).idleMemBufs.length ≤ streamId) :
    s.allocTensorMem size b needRecycle streamId d = .error .index := by
  have hfind : s.findMemBufInSpecifiedMng (alignMemorySize size) b .idle streamId =
      .error .index := by
    have hsub : subscript ((s.mng b).container .idle) streamId = .error .index := subscript_of_le h
    rw [findMemBufInSpecifiedMng, hsub]
    rfl
  rw [allocTensorMem, findAvailableMemBuf, findMemBufByStatus, hfind]
  rfl

theorem Owned.readBuf {blk : DynamicMemBlock} (h : Owned s) (hq : q ∈ (s.mng b).memBlockList)
    (hblk : s.blocks.get q = some blk) (hp : blk.blockAllMemBufMap.find? a = some p) :
    ∃ y, s.readBuf p = .ok y := by
  obtain ⟨blk', hblk', hbufs⟩ := h b q hq
  rw [hblk] at hblk'
  cases hblk'
  obtain ⟨y, hy, -⟩ := hbufs a p hp
  exact ⟨y, by rw [DynamicMemPoolBestFitOpt.readBuf, hy]⟩

theorem readBlock_of_get {blk : DynamicMemBlock} (h : s.blocks.get q = some blk) :
    s.readBlock q = .ok blk := by
  rw [readBlock, h]

section Emptied

variable (hidle : ∀ b, (s.mng b).idleMemBufs = [])

include hidle

theorem subscript_idle : subscript ((s.mng b).container .idle) i = .error .index := by
  refine subscript_of_le ?_
  change (s.mng b).idleMemBufs.length ≤ i
  rw [hidle]
  exact Nat.zero_le i

theorem eraseMemBufByStatus_index :
    s.eraseMemBufByStatus size a b .idle i = .error .index := by
  rw [eraseMemBufByStatus, subscript_idle hidle]
  rfl

theorem putBack_index {y : DynamicMemBuf} (hp : s.readBuf p = .ok y) :
    s.putBack p b .idle i = .error .index := by
  have hadd : s.addMemBuf b .idle i y.size p = .error .index := by
    rw [addMemBuf, if_neg (by decide), subscript_idle hidle]
    rfl
  rw [putBack, hp]
  change s.addMemBuf b .idle i y.size p >>= _ = _
  rw [hadd]
  rfl

/-- The buf is not joined with the next one, or that goes past the end. -/
theorem combineNext_index (howned : Owned s) (hat : At a x s) :
    Ends (fun e => e = Fault.index) (fun s' => s' = s) (s.combineNext a x .idle) := by
  obtain ⟨blk, hblk, hfind⟩ := hat.mapped
  rw [combineNext, readBlock_of_get hblk]
  dsimp only [bind, Except.bind]
  cases hnext : blk.blockAllMemBufMap.upper? a with
  | none => rfl
  | some next =>
      have hmem := OrdMap.find?_eq_some_iff.mpr (OrdMap.upper?_eq_some hnext).1
      obtain ⟨y, hy⟩ := howned.readBuf hat.listed hblk hmem
      dsimp only
      rw [hy]
      change Ends _ _ (if y.status = .idle then _ else _)
      split
      · have hidle' : ∀ b, ((s.writeBuf x.memBuf fun z =>
            { z with size := addSize z.size y.size }).mng b).idleMemBufs = [] := hidle
        rw [eraseMemBufByStatus_index hidle']
        rfl
      · rfl

theorem combineMemBufForward_index (howned : Owned s) (hat : At a x s) :
    s.combineMemBufForward a x .idle = .error .index := by
  obtain ⟨blk, hblk, hfind⟩ := hat.mapped
  obtain ⟨y, hy⟩ := howned.readBuf hat.listed hblk hfind
  rw [combineMemBufForward, readBlock_of_get hblk]
  dsimp only [bind, Except.bind]
  cases hprev : blk.blockAllMemBufMap.below? a with
  | none => exact putBack_index hidle hy
  | some prev =>
      have hmem := OrdMap.find?_eq_some_iff.mpr (OrdMap.mem_of_below? hprev)
      obtain ⟨z, hz⟩ := howned.readBuf hat.listed hblk hmem
      dsimp only
      rw [hz]
      change (if z.status = .idle then _ else _) = _
      split
      · rw [eraseMemBufByStatus_index hidle]
      · exact putBack_index hidle hy

end Emptied

/-- A buf that comes back to emptied vectors. -/
theorem combineAt_index {origin : DynamicMemBufStatus} (howned : Owned s) (hat : At a x s)
    (hidle : ∀ b, (s.mng b).idleMemBufs = []) :
    s.combineAt a origin .idle x = .error .index := by
  obtain ⟨blk, hblk, hfind⟩ := hat.mapped
  obtain ⟨y, hy⟩ := howned.readBuf hat.listed hblk hfind
  rw [combineAt, hy]
  have hs₁ : Writes (fun _ => True) s (s.writeBuf x.memBuf fun b => { b with status := .idle }) :=
    .of_write (.buf _ _ (fun _ => ⟨rfl, rfl⟩) fun _ => Or.inr trivial)
  have hs₂ := hs₁.write (write_mps x.persistent (DeviceState.leave origin y.size) _)
  have hat₁ : At a x (s.writeBuf x.memBuf fun b => { b with status := .idle }) :=
    ⟨hat.listed, hat.mapped⟩
  have hat₂ := hat₁.same (sameBlocks_mps x.persistent (DeviceState.leave origin y.size) _)
  have hidle₂ : ∀ b, (((s.writeBuf x.memBuf fun b => { b with status := .idle }).setMps
      x.persistent (DeviceState.leave origin y.size)).mng b).idleMemBufs = [] := by
    intro b
    exact List.eq_nil_of_length_eq_zero
      ((hs₂.container b .idle).trans (congrArg List.length (hidle b)))
  have howned₂ := hs₂.owned howned
  refine Ends.eq_error ((combineNext_index hidle₂ howned₂ hat₂).bind fun s₃ hs₃ => ?_)
  rw [hs₃, combineMemBufForward_index hidle₂ howned₂ hat₂]
  rfl

theorem freeTensorMem_index (howned : Owned s) (hidle : ∀ b, (s.mng b).idleMemBufs = [])
    (hfind : s.findByAddr a = some x) : s.freeTensorMem a = .error .index := by
  rw [freeTensorMem, combineMemBuf, hfind]
  exact combineAt_index howned (at_of_findByAddr hfind) hidle

/-- The first address that is known goes past the end. -/
theorem freePartTensorMems_index {freeAddrs : List Nat} {keeps : List (Nat × Nat)}
    (howned : Owned s) (hidle : ∀ b, (s.mng b).idleMemBufs = [])
    (hknown : ∃ a ∈ freeAddrs, s.findByAddr a ≠ none) :
    s.freePartTensorMems freeAddrs keeps = .error .index := by
  have hfrees : freeAddrs.foldlM (fun s a => freeTensorMem a s) s = .error .index := by
    induction freeAddrs with
    | nil =>
        obtain ⟨a, ha, -⟩ := hknown
        cases ha
    | cons a as ih =>
        rw [List.foldlM_cons]
        cases hfind : s.findByAddr a with
        | some x =>
            rw [freeTensorMem_index howned hidle hfind]
            rfl
        | none =>
            rw [freeTensorMem_missing hfind]
            refine ih ?_
            obtain ⟨a', ha', hne⟩ := hknown
            rcases List.mem_cons.mp ha' with rfl | ha'
            · exact absurd hfind hne
            · exact ⟨a', ha', hne⟩
  rw [freePartTensorMems, hfrees]
  rfl

/-- A call that keeps part of what it frees goes past the end if the condition fails. -/
theorem call_index {c : PoolCall} (h : Inv n i s) (hkeeps : KeepsFreed s c) (hc : ¬ Meets s c) :
    s.call c = .error .index := by
  have hidle : s.commonMem.idleMemBufs = [] → ∀ b, (s.mng b).idleMemBufs = [] := by
    intro hnil b
    have hzero : i = 0 := (h.idle false).symm.trans (congrArg List.length hnil)
    exact List.eq_nil_of_length_eq_zero ((h.idle b).trans hzero)
  cases c with
  | allocTensorMem size b needRecycle streamId d =>
      have hle : (s.mng b).idleMemBufs.length ≤ streamId := by
        rw [h.idle, ← h.idle false]
        exact Nat.le_of_not_lt hc
      rw [call, allocTensorMem_index hle]
      rfl
  | allocContinuousTensorMem sizeList streamId d =>
      rw [call, allocContinuousTensorMem, allocTensorMem_index (Nat.le_of_not_lt hc)]
      rfl
  | freeTensorMem a =>
      obtain ⟨hnil, hfind⟩ := not_or.mp hc
      obtain ⟨x, hx⟩ := Option.ne_none_iff_exists'.mp hfind
      exact freeTensorMem_index h.owned (hidle (not_not.mp hnil)) hx
  | freePartTensorMems freeAddrs keeps =>
      obtain ⟨hnil, hnone⟩ := not_or.mp hc
      refine freePartTensorMems_index h.owned (hidle (not_not.mp hnil)) ?_
      by_contra hunknown
      have hall : ∀ a ∈ freeAddrs, s.findByAddr a = none := by
        intro a ha
        by_contra hfind
        exact hunknown ⟨a, ha, hfind⟩
      refine hnone ⟨hall, List.eq_nil_iff_forall_not_mem.mpr fun k hk => ?_⟩
      obtain ⟨a, ha, x, hx, -⟩ := hkeeps k hk
      rw [hall a ha] at hx
      cases hx
  | setMemAllocUintSize => exact absurd trivial hc
  | releaseDeviceRes => exact absurd trivial hc

/-! ## Runs -/

/-- A call under its condition, that is survived. -/
def MeetStep (s : DynamicMemPoolBestFitOpt) (c : PoolCall) (s' : DynamicMemPoolBestFitOpt) :
    Prop :=
  s.call c = .ok s' ∧ Meets s c

theorem inv_run {recycled : Bool} {commonSize persistSize : Nat} {calls : List PoolCall}
    (h : Run MeetStep (fresh recycled commonSize persistSize) calls s) : ∃ n i, Inv n i s := by
  refine h.state_inv (I := fun s => ∃ n i, Inv n i s)
    ⟨128, 128, inv_fresh recycled commonSize persistSize⟩ fun s c s' hs hstep => ?_
  obtain ⟨n, i, hs⟩ := hs
  exact (call_in hs hstep.2).of_ok hstep.1

/-- In every run under the condition, all vectors of idle bufs have 128 elements or none,
and the next call goes past the end of no vector if it is under the condition, too. If it
is not, and keeps no more than it frees, it does. -/
theorem opt_index_iff {recycled : Bool} {commonSize persistSize : Nat} {calls : List PoolCall}
    (h : Run MeetStep (fresh recycled commonSize persistSize) calls s) (c : PoolCall) :
    (s.commonMem.idleMemBufs.length = 128 ∨ s.commonMem.idleMemBufs = []) ∧
      (Meets s c → s.call c ≠ .error .index) ∧
      (KeepsFreed s c → ¬ Meets s c → s.call c = .error .index) := by
  obtain ⟨n, i, hinv⟩ := inv_run h
  refine ⟨?_, fun hc hindex => (call_in hinv hc).of_error hindex rfl, call_index hinv⟩
  have hlen : s.commonMem.idleMemBufs.length = i := hinv.idle false
  rw [← List.length_eq_zero_iff, hlen]
  rcases hinv.all_or_none with rfl | rfl
  · exact hinv.new_or_cleared
  · exact Or.inr rfl

/-- The device of the runs below: with room for a block, or with none but what an eager
free gives. -/
def roomy : DeviceAnswer := ⟨2 ^ 40, 4096, 2 ^ 30, 2 ^ 40, 0, false, 0, 0⟩

def scarce : DeviceAnswer := ⟨0, 0, 0, 2 ^ 40, 0, true, 2 ^ 35, 2 ^ 40⟩

/-- Two allocations, the second of which frees eagerly. Behind them an address that is
nowhere may be freed, and one that is known may not. -/
theorem opt_index_iff_eager :
    ∃ s, Run MeetStep (fresh false (2 ^ 30) (2 ^ 30))
        [.allocTensorMem 512 false false 0 roomy,
          .allocTensorMem (2 ^ 34) false false 127 scarce] s ∧
      s.call (.freeTensorMem 77) ≠ .error .index ∧
      s.call (.freeTensorMem 4096) = .error .index := by
  obtain ⟨s, hrun, hmissing, hknown⟩ :
      ∃ s, Run (fun s c s' => (call s c).toOption = some s' ∧ Meets s c)
        (fresh false (2 ^ 30) (2 ^ 30))
        [.allocTensorMem 512 false false 0 roomy,
          .allocTensorMem (2 ^ 34) false false 127 scarce] s ∧
        Meets s (.freeTensorMem 77) ∧ ¬ Meets s (.freeTensorMem 4096) :=
    Run.exists_of_exec (by decide +kernel)
  have hrun' : Run MeetStep (fresh false (2 ^ 30) (2 ^ 30))
      [.allocTensorMem 512 false false 0 roomy,
        .allocTensorMem (2 ^ 34) false false 127 scarce] s :=
    hrun.imp fun s c s' h => ⟨ok_of_toOption h.1, h.2⟩
  exact ⟨s, hrun', (opt_index_iff hrun' _).2.1 hmissing,
    (opt_index_iff hrun' _).2.2 trivial hknown⟩

/-- Three failing calls: a stream that is too large, one after a release, and a free
after an eager free. -/
theorem subscript_past_end :
    (fresh false (2 ^ 30) (2 ^ 30)).call (.allocTensorMem 512 false false 128 roomy) =
        .error .index ∧
      ((fresh false (2 ^ 30) (2 ^ 30)).call .releaseDeviceRes >>= fun s =>
        s.call (.allocTensorMem 512 false false 0 roomy)) = .error .index ∧
      ((fresh false (2 ^ 30) (2 ^ 30)).call (.allocTensorMem (2 ^ 34) false false 0 scarce) >>=
        fun s => s.call (.freeTensorMem (2 ^ 35))) = .error .index := by
  refine ⟨?_, ?_, ?_⟩ <;> rfl

end DynamicMemPoolBestFitOpt

end Ccbase.DynamicMem.Opt
