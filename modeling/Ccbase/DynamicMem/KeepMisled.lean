import Ccbase.DynamicMem.Calls

/-!
# Ranges that are kept in the wrong block

A range that misleads the search gets a buf at the end of a common block, and no
later range takes the buf away. So `FreePartTensorMems` does what it should exactly
if no range misleads the search.
-/

namespace Ccbase.DynamicMem

open Ccbase.Lib

/-! ## A buf that stays -/

/-- A block at `base`, of `len` bytes, has a buf at `a`. -/
def HasBuf (base len a : Nat) (blocks : List (DynamicMemBlock DynamicMemBuf)) : Prop :=
  ∃ blk ∈ blocks, blk.deviceAddrBase = base ∧ blk.memBlockSize = len ∧
    ∃ x ∈ blk.blockAllMemBufMap, x.deviceAddr = a

section HasBuf

variable {m m' : MemStatusManager} {base len a : Nat}

theorem mem_emplaceBuf {new : DynamicMemBuf} {bufs : List DynamicMemBuf} {x : DynamicMemBuf}
    (hx : x ∈ bufs) : x ∈ emplaceBuf DynamicMemBuf.deviceAddr new bufs := by
  induction bufs with
  | nil => cases hx
  | cons y bufs ih =>
      rw [emplaceBuf]
      split
      · rcases List.mem_cons.mp hx with rfl | hx
        · exact List.mem_cons_self ..
        · exact List.mem_cons_of_mem y (ih hx)
      · split
        · exact hx
        · exact List.mem_cons_of_mem _ hx

/-- After `emplace` there is a buf at the address. -/
theorem exists_mem_emplaceBuf (new : DynamicMemBuf) (bufs : List DynamicMemBuf) :
    ∃ x ∈ emplaceBuf DynamicMemBuf.deviceAddr new bufs, x.deviceAddr = new.deviceAddr := by
  induction bufs with
  | nil => exact ⟨new, List.mem_cons_self .., rfl⟩
  | cons y bufs ih =>
      rw [emplaceBuf]
      split
      · obtain ⟨x, hx, haddr⟩ := ih
        exact ⟨x, List.mem_cons_of_mem y hx, haddr⟩
      · split
        · rename_i heq
          exact ⟨y, List.mem_cons_self .., heq⟩
        · exact ⟨new, List.mem_cons_self .., rfl⟩

theorem HasBuf.emplaceIn (h : HasBuf base len a m.memBlockList) (base' : Nat)
    (new : DynamicMemBuf) : HasBuf base len a (m.emplaceIn base' new).memBlockList := by
  obtain ⟨blk, hblk, hbase, hlen, x, hx, haddr⟩ := h
  refine ⟨_, List.mem_map_of_mem hblk, ?_⟩
  split
  · exact ⟨hbase, hlen, x, mem_emplaceBuf hx, haddr⟩
  · exact ⟨hbase, hlen, x, hx, haddr⟩

theorem HasBuf.writeBuf (h : HasBuf base len a m.memBlockList) (p : Nat)
    {f : DynamicMemBuf → DynamicMemBuf} (hf : ∀ x, (f x).deviceAddr = x.deviceAddr) :
    HasBuf base len a (m.writeBuf p f).memBlockList := by
  obtain ⟨blk, hblk, hbase, hlen, x, hx, haddr⟩ := h
  refine ⟨_, List.mem_map_of_mem hblk, hbase, hlen, _, List.mem_map_of_mem hx, ?_⟩
  split
  · rw [hf, haddr]
  · exact haddr

/-- A block at the address to which a buf is added. -/
theorem hasBuf_emplaceIn {blk : DynamicMemBlock DynamicMemBuf} (hblk : blk ∈ m.memBlockList)
    (new : DynamicMemBuf) : HasBuf blk.deviceAddrBase blk.memBlockSize new.deviceAddr
      (m.emplaceIn blk.deviceAddrBase new).memBlockList := by
  obtain ⟨x, hx, haddr⟩ := exists_mem_emplaceBuf new blk.blockAllMemBufMap
  refine ⟨_, List.mem_map_of_mem hblk, ?_⟩
  rw [if_pos rfl]
  exact ⟨rfl, rfl, x, hx, haddr⟩

theorem HasBuf.keepLeft (h : HasBuf base len a m.memBlockList) (k size left : Nat)
    (blk : DynamicMemBlock DynamicMemBuf) (x : DynamicMemBuf) :
    HasBuf base len a (m.keepLeft k size left blk x).memBlockList := by
  rw [MemStatusManager.keepLeft]
  split
  · exact h.writeBuf _ fun _ => rfl
  · have hwritten : HasBuf base len a ((m.writeBuf x.deviceAddr fun b =>
        { b with size := left }).addIdleMemBuf { x with size := left } blk.streamId).memBlockList :=
      h.writeBuf _ fun _ => rfl
    exact hwritten.emplaceIn _ _

theorem HasBuf.keepRight (h : HasBuf base len a m.memBlockList) (k size right : Nat)
    (blk : DynamicMemBlock DynamicMemBuf) :
    HasBuf base len a (m.keepRight k size right blk).memBlockList := by
  rw [MemStatusManager.keepRight]
  split
  · exact h.emplaceIn _ _
  · exact h

theorem eraseMemBufByStatus_blocks {size p s : Nat} {status : DynamicMemBufStatus}
    (h : m.eraseMemBufByStatus size p status s = some m') : m'.memBlockList = m.memBlockList := by
  rw [MemStatusManager.eraseMemBufByStatus] at h
  split at h
  · obtain ⟨c, -, rfl⟩ := Option.map_eq_some_iff.mp h
    rfl
  · obtain ⟨c, -, rfl⟩ := Option.map_eq_some_iff.mp h
    rfl

theorem HasBuf.keepTensorMem (h : HasBuf base len a m.memBlockList) {k size : Nat}
    {blk : DynamicMemBlock DynamicMemBuf} {x : DynamicMemBuf}
    (hm : m.keepTensorMem k size blk x = some m') : HasBuf base len a m'.memBlockList := by
  simp only [MemStatusManager.keepTensorMem, Option.bind_eq_bind] at hm
  obtain ⟨m₁, hm₁, hm⟩ := Option.bind_eq_some_iff.mp hm
  cases hm
  have h₁ : HasBuf base len a m₁.memBlockList := by
    rw [eraseMemBufByStatus_blocks hm₁]
    exact h
  exact (h₁.keepLeft _ _ _ _ _).keepRight _ _ _ _

end HasBuf

/-! ## The whole list of ranges -/

section Pools

variable {p p' : DynamicMemPoolBestFit} {base len a k size : Nat}

theorem HasBuf.keepTensorMemByAddr (h : HasBuf base len a p.commonMem.memBlockList)
    (hp : p.keepTensorMemByAddr k size = some p') :
    HasBuf base len a p'.commonMem.memBlockList := by
  simp only [DynamicMemPoolBestFit.keepTensorMemByAddr, Option.bind_eq_bind] at hp
  obtain ⟨⟨b, blk, x⟩, -, hp⟩ := Option.bind_eq_some_iff.mp hp
  obtain ⟨m, hm, hp⟩ := Option.bind_eq_some_iff.mp hp
  cases hp
  cases b with
  | false =>
      have h : HasBuf base len a (p.mng false).memBlockList := h
      exact h.keepTensorMem hm
  | true => exact h

theorem HasBuf.keepAll {keeps : List (Nat × Nat)} : ∀ {p : DynamicMemPoolBestFit},
    HasBuf base len a p.commonMem.memBlockList →
    keeps.foldlM (fun p k => p.keepTensorMemByAddr k.1 k.2) p = some p' →
    HasBuf base len a p'.commonMem.memBlockList := by
  induction keeps with
  | nil =>
      intro p h hp
      cases hp
      exact h
  | cons k keeps ih =>
      intro p h hp
      rw [List.foldlM_cons] at hp
      obtain ⟨p₁, hp₁, hp⟩ := Option.bind_eq_some_iff.mp hp
      exact ih (h.keepTensorMemByAddr hp₁) hp

/-- A common block is searched for an address at its end. -/
theorem findByKeepAddr_misled (hinv : PoolInv p) (h : Misled p k) :
    ∃ B ∈ p.commonMem.memBlockList, B.deviceAddrBase + B.memBlockSize = k ∧ ∃ y,
      p.findByKeepAddr k = some (false, B, y) ∧ y.deviceAddr < k := by
  obtain ⟨⟨P, hP, hstart⟩, B, hB, hend⟩ := h
  have hPpos := (hinv.mngs true).placed.pos P hP
  have hBpos := (hinv.mngs false).placed.pos B hB
  have hspace := (hinv.mngs true).inSpace P hP
  obtain ⟨L, R, hblocks⟩ := List.append_of_mem hB
  have hpair := (hinv.mngs false).placed.apart
  have hmng : (p.mng false).memBlockList = L ++ B :: R := hblocks
  rw [hmng, List.pairwise_append] at hpair
  obtain ⟨-, hR, hcross⟩ := hpair
  have hblock : findMemBlock k p.commonMem.memBlockList = some B := by
    rw [findMemBlock, hblocks]
    refine getLast?_takeWhile_middle (fun C hC => ?_) ?_ fun C hC => ?_
    · have := hcross C hC B (List.mem_cons_self ..)
      rw [Bool.not_eq_true', decide_eq_false_iff_not]
      omega
    · rw [Bool.not_eq_true', decide_eq_false_iff_not]
      omega
    · have hmem := List.mem_of_mem_head? hC
      have hle := (List.pairwise_cons.mp hR).1 C hmem
      have hCmem : C ∈ (p.mng false).memBlockList := by
        rw [hmng]
        simp [hmem]
      have hCpos := (hinv.mngs false).placed.pos C hCmem
      have hapart := hinv.apart false C hCmem P hP
      rw [Apart] at hapart
      rw [Bool.not_eq_false', decide_eq_true_eq]
      omega
  have htiles := (hinv.mngs false).placed.tiles B hB
  obtain ⟨y, hy⟩ : ∃ y, B.blockAllMemBufMap.getLast? = some y := by
    cases hlast : B.blockAllMemBufMap.getLast? with
    | some y => exact ⟨y, rfl⟩
    | none =>
        rw [List.getLast?_eq_none_iff] at hlast
        rw [hlast] at htiles
        have heq : B.deviceAddrBase = B.deviceAddrBase + B.memBlockSize := htiles
        omega
  have hymem := List.mem_of_getLast? hy
  have hyin := htiles.bounds hymem
  have hall : (B.blockAllMemBufMap.takeWhile fun b => !decide (k < b.deviceAddr)) =
      B.blockAllMemBufMap := by
    rw [List.takeWhile_eq_self_iff]
    intro z hz
    have := htiles.bounds hz
    rw [Bool.not_eq_true', decide_eq_false_iff_not]
    omega
  have hyend : y.deviceAddr + y.size = k := by
    rw [← List.dropLast_append_getLast? y hy] at htiles
    obtain ⟨-, -, hnil⟩ := htiles.middle
    have heq : y.deviceAddr + y.size = B.deviceAddrBase + B.memBlockSize := hnil
    omega
  have htest : MemStatusManager.isAddrInMembuf k y = true := by
    rw [MemStatusManager.isAddrInMembuf, subSize_eq (by omega) (by omega), Bool.and_eq_true,
      decide_eq_true_eq, decide_eq_true_eq]
    omega
  have hbuf : MemStatusManager.findMemBufByKeepAddr k B = some y := by
    rw [MemStatusManager.findMemBufByKeepAddr, hall, hy]
  have hfound : p.commonMem.findKeep k = some (B, y) := by
    simp only [MemStatusManager.findKeep, hblock, hbuf, htest, Option.bind_eq_bind,
      Option.bind_some, if_true]
  refine ⟨B, hB, hend, y, ?_, by omega⟩
  rw [DynamicMemPoolBestFit.findByKeepAddr, hfound]

/-- A range that misleads the search puts a buf at the end of a common block. -/
theorem keepTensorMemByAddr_misled (hinv : PoolInv p) (h : Misled p k)
    (hp : p.keepTensorMemByAddr k size = some p') :
    ∃ base len, base + len = k ∧ HasBuf base len k p'.commonMem.memBlockList := by
  obtain ⟨B, hB, hend, y, hfound, hlt⟩ := findByKeepAddr_misled hinv h
  refine ⟨B.deviceAddrBase, B.memBlockSize, hend, ?_⟩
  simp only [DynamicMemPoolBestFit.keepTensorMemByAddr, hfound, Option.bind_eq_bind,
    Option.bind_some] at hp
  obtain ⟨m, hm, hp⟩ := Option.bind_eq_some_iff.mp hp
  cases hp
  simp only [MemStatusManager.keepTensorMem, Option.bind_eq_bind] at hm
  obtain ⟨m₁, hm₁, hm⟩ := Option.bind_eq_some_iff.mp hm
  cases hm
  refine HasBuf.keepRight ?_ _ _ _ _
  obtain ⟨⟨P, hP, hstart⟩, -⟩ := h
  have hspace := (hinv.mngs true).inSpace P hP
  have hPpos := (hinv.mngs true).placed.pos P hP
  have hleft : subSize k y.deviceAddr ≠ 0 := by
    rw [subSize_eq (by omega) hlt.le]
    omega
  rw [MemStatusManager.keepLeft, if_neg hleft]
  have hB₁ : B ∈ m₁.memBlockList := by
    rw [eraseMemBufByStatus_blocks hm₁]
    exact hB
  have hwritten : B.setBufs (B.blockAllMemBufMap.map fun x =>
      if x.deviceAddr = y.deviceAddr then { x with size := subSize k y.deviceAddr } else x) ∈
      ((m₁.writeBuf y.deviceAddr fun b => { b with size := subSize k y.deviceAddr }).addIdleMemBuf
        { y with size := subSize k y.deviceAddr } B.streamId).memBlockList :=
    List.mem_map_of_mem hB₁
  exact hasBuf_emplaceIn hwritten { deviceAddr := k, status := .used, size := size }

/-- One range that misleads the search is enough. -/
theorem keepAll_misled {keeps : List (Nat × Nat)} : ∀ {p : DynamicMemPoolBestFit}, PoolInv p →
    keeps.Pairwise RangesApart → (∀ k ∈ keeps, 0 < k.2 ∧ ∃ b, InIdle p b k.1 k.2) →
    (∃ k ∈ keeps, Misled p k.1) →
    keeps.foldlM (fun p k => p.keepTensorMemByAddr k.1 k.2) p = some p' →
    ∃ base len, HasBuf base len (base + len) p'.commonMem.memBlockList := by
  induction keeps with
  | nil =>
      rintro p _ _ _ ⟨k, hk, -⟩
      cases hk
  | cons k keeps ih =>
      intro p hinv hapart hkeeps hmis hp
      obtain ⟨hk, htail⟩ := List.pairwise_cons.mp hapart
      obtain ⟨hpos, b, x, hx, hidle, hlo, hhi⟩ := hkeeps k (List.mem_cons_self ..)
      rw [List.foldlM_cons] at hp
      obtain ⟨p₁, hp₁, hp⟩ := Option.bind_eq_some_iff.mp hp
      by_cases hfirst : Misled p k.1
      · obtain ⟨base, len, hend, hbuf⟩ := keepTensorMemByAddr_misled hinv hfirst hp₁
        rw [← hend] at hbuf
        exact ⟨base, len, hbuf.keepAll hp⟩
      · obtain ⟨p₂, L, blk, R, l, r, hp₂, hkept, he⟩ :=
          keepTensorMemByAddr_spec hinv hx hidle hpos hlo hhi hfirst
        rw [hp₂] at hp₁
        cases hp₁
        have hsame := he.sameBlocks hkept.place.blocks hkept.blocks hkept.unitSize
        refine ih (hkept.poolInv hinv he) htail (fun k' hk' => ?_) ?_ hp
        · obtain ⟨hpos', b', hidle'⟩ := hkeeps k' (List.mem_cons_of_mem _ hk')
          exact ⟨hpos', b', hkept.inIdle he hidle' hpos' (hk k' hk')⟩
        · obtain ⟨k', hk', hmis'⟩ := hmis
          rcases List.mem_cons.mp hk' with rfl | hk'
          · exact absurd hmis' hfirst
          · exact ⟨k', hk', hsame.symm.misled hmis'⟩

end Pools

/-! ## The whole call -/

/-- What `FreePartTensorMems` should do: in use are what was and is not freed, and the
ranges; the rest of what is freed is idle; the blocks are tiled and the indexes right. -/
structure FreesPart (frees : List Nat) (keeps : List (Nat × Nat))
    (p p' : DynamicMemPoolBestFit) : Prop where
  used : ∀ b y, UsedIn p' b y ↔ UsedIn p b y ∧ y.deviceAddr ∉ frees ∨
    ∃ k ∈ keeps, y = keptBuf k.1 k.2 ∧
      ∃ x, UsedIn p b x ∧ x.deviceAddr ∈ frees ∧ Covers x k.1 k.2
  idle : ∀ b x, UsedIn p b x → x.deviceAddr ∈ frees → ∀ i, x.deviceAddr ≤ i →
    i < x.deviceAddr + x.size → (∀ k ∈ keeps, ¬ (k.1 ≤ i ∧ i < k.1 + k.2)) → InIdle p' b i 1
  tiles : ∀ b, ∀ blk ∈ (p'.mng b).memBlockList, Tiles DynamicMemBuf.deviceAddr DynamicMemBuf.size
    blk.deviceAddrBase blk.blockAllMemBufMap (blk.deviceAddrBase + blk.memBlockSize)
  indexed : ∀ b s, (sizeMapOf (p'.mng b).idleMemBufs s).entries.Perm
    (idleEntries s (p'.mng b).memBlockList)

theorem PartFreed.freesPart {p p' : DynamicMemPoolBestFit} {frees : List Nat}
    {keeps : List (Nat × Nat)} (hinv : PoolInv p) (h : PartFreed frees keeps p p') :
    FreesPart frees keeps p p' where
  used := h.used
  idle _ _ hx hmem _ hlo hhi hkeeps := h.idle_elsewhere hinv hx hmem hlo hhi hkeeps
  tiles b := (h.inv.mngs b).placed.tiles
  indexed b := (h.inv.mngs b).indexed

/-- A tiled block has no buf at its end. -/
theorem HasBuf.not_tiled {blocks : List (DynamicMemBlock DynamicMemBuf)} {base len : Nat}
    (h : HasBuf base len (base + len) blocks) :
    ¬ ∀ blk ∈ blocks, Tiles DynamicMemBuf.deviceAddr DynamicMemBuf.size
      blk.deviceAddrBase blk.blockAllMemBufMap (blk.deviceAddrBase + blk.memBlockSize) := by
  intro htiles
  obtain ⟨blk, hblk, hbase, hlen, x, hx, haddr⟩ := h
  have hin := (htiles blk hblk).bounds hx
  omega

theorem freePartTensorMems_iff {p : DynamicMemPoolBestFit} {frees : List Nat}
    {keeps : List (Nat × Nat)} (hinv : PoolInv p) (h : PartAllowed p frees keeps) :
    (∃ p', p.freePartTensorMems frees keeps = some p' ∧ FreesPart frees keeps p p') ↔
      ∀ k ∈ keeps, ¬ Misled p k.1 := by
  constructor
  · rintro ⟨p', hp', hpart⟩ k hk hmis
    obtain ⟨p₁, hp₁, hfreed⟩ := freeAll_spec hinv h.nodup h.used
    simp only [DynamicMemPoolBestFit.freePartTensorMems, hp₁, Option.bind_eq_bind,
      Option.bind_some] at hp'
    obtain ⟨base, len, hbuf⟩ := keepAll_misled hfreed.inv h.apart (fun k hk => by
      obtain ⟨b, x, hx, hmem, hcovers⟩ := h.inside k hk
      exact ⟨h.pos k hk, b, (hfreed.idle b x hx.1 (Or.inr ⟨hx.2, hmem⟩)).trans hcovers⟩)
      ⟨k, hk, hfreed.same.symm.misled hmis⟩ hp'
    exact hbuf.not_tiled (hpart.tiles false)
  · intro hsafe
    obtain ⟨p', hp', hfreed⟩ := freePartTensorMems_spec hinv h hsafe
    exact ⟨p', hp', hfreed.freesPart hinv⟩

/-- In every state that a run of calls under their conditions reaches, part of what a
client has is freed as it should be exactly if no range misleads the search. -/
theorem bestFit_freePart_iff {recycled : Bool} {commonSize persistSize : Nat}
    {ls : List PoolCall} {c : Client}
    (h : Run (Client.MeetStep .plain) (Client.startAt recycled commonSize persistSize) ls c)
    {frees : List Nat} {keeps : List (Nat × Nat)} (hmay : c.MayCall (.freePart frees keeps)) :
    (∃ p', c.pool.freePartTensorMems frees keeps = some p' ∧ FreesPart frees keeps c.pool p') ↔
      ∀ k ∈ keeps, ¬ Misled c.pool k.1 := by
  have hinv := ClientInv.callRun splits_isSplit splits_isSplit h
  exact freePartTensorMems_iff hinv.pool (hinv.partAllowed hmay)

/-- The middle of one buf, and all of another next to it. -/
theorem bestFit_freePart_iff_two :
    ∃ c, Run (Client.MeetStep .plain) (Client.startAt false 1048576 1048576)
      [.alloc 2048 false false 0 ⟨1073741824, 4096, 1048576⟩,
        .alloc 512 false false 0 ⟨1073741824, 0, 0⟩] c ∧
      ∃ p', c.pool.freePartTensorMems [4096, 6144] [(6144, 512), (4608, 100)] = some p' ∧
        FreesPart [4096, 6144] [(6144, 512), (4608, 100)] c.pool p' := by
  obtain ⟨c, hrun, hmay, hsafe⟩ : ∃ c, Run (Client.MeetStep .plain)
      (Client.startAt false 1048576 1048576)
      [.alloc 2048 false false 0 ⟨1073741824, 4096, 1048576⟩,
        .alloc 512 false false 0 ⟨1073741824, 0, 0⟩] c ∧
      c.MayCall (.freePart [4096, 6144] [(6144, 512), (4608, 100)]) ∧
      ∀ k ∈ ([(6144, 512), (4608, 100)] : List (Nat × Nat)), ¬ Misled c.pool k.1 :=
    Run.exists_of_exec (by decide +kernel)
  exact ⟨c, hrun, (bestFit_freePart_iff hrun hmay).mpr hsafe⟩

/-- A range at the start of a persistent block right behind a common one. -/
theorem freePart_keeps_wrong_block :
    ∃ c, Run (Client.CallStep .plain) (Client.startAt false 512 512)
      [.alloc 512 false false 0 ⟨1073741824, 4096, 1024⟩,
        .alloc 512 true false 0 ⟨1073741824, 5120, 512⟩] c ∧
      c.MayCall (.freePart [5120] [(5120, 100)]) ∧
      ¬ ∃ p', c.pool.freePartTensorMems [5120] [(5120, 100)] = some p' ∧
        FreesPart [5120] [(5120, 100)] c.pool p' := by
  obtain ⟨c, hrun, hmay, hout⟩ : ∃ c, Run (Client.CallStep .plain) (Client.startAt false 512 512)
      [.alloc 512 false false 0 ⟨1073741824, 4096, 1024⟩,
        .alloc 512 true false 0 ⟨1073741824, 5120, 512⟩] c ∧
      c.MayCall (.freePart [5120] [(5120, 100)]) ∧
      (c.pool.freePartTensorMems [5120] [(5120, 100)]).all (fun p' =>
        decide (∃ blk ∈ (p'.mng false).memBlockList, ∃ x ∈ blk.blockAllMemBufMap,
          x.deviceAddr = blk.deviceAddrBase + blk.memBlockSize)) = true :=
    Run.exists_of_exec (by decide +kernel)
  refine ⟨c, hrun, hmay, ?_⟩
  rintro ⟨p', hp', hpart⟩
  rw [hp'] at hout
  obtain ⟨blk, hblk, x, hx, haddr⟩ := of_decide_eq_true hout
  have hin := (hpart.tiles false blk hblk).bounds hx
  omega

end Ccbase.DynamicMem
