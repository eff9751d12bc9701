import Ccbase.DynamicMem.OptAlloc

/-!
# A free on the heap and by value

`CombineMemBuf` of the two classes. The one deletes the objects of the bufs that are
joined, so that an entry of an index may lead to nothing; none does, since no two
entries are of one buf.
-/

namespace Ccbase.DynamicMem

open Ccbase.Lib

/-! ## The entries of an index are of different bufs -/

theorem sublist_idleEntries (i : Nat) (blocks : List (DynamicMemBlock DynamicMemBuf)) :
    ((idleEntries i blocks).map Prod.snd).Sublist
      ((allBufs blocks).map DynamicMemBuf.deviceAddr) := by
  induction blocks with
  | nil => exact List.Sublist.refl _
  | cons blk blocks ih =>
      rw [allBufs_cons, List.map_append]
      by_cases hi : blk.streamId = i
      · rw [idleEntries_cons_same hi, List.map_append]
        refine List.Sublist.append ?_ ih
        rw [entriesOf, List.map_map]
        exact List.filter_sublist.map _
      · rw [idleEntries_cons_other hi]
        exact List.sublist_append_of_sublist_right ih

theorem MngInv.nodup_index {m : MemStatusManager} (h : MngInv m) (i : Nat) :
    ((sizeMapOf m.idleMemBufs i).entries.map Prod.snd).Nodup := by
  have haddrs : ((allBufs m.memBlockList).map DynamicMemBuf.deviceAddr).Nodup := by
    refine List.pairwise_map.mpr (h.placed.pairwise_allBufs.imp_of_mem ?_)
    intro x y hx _ hle
    obtain ⟨blk, hblk, hx⟩ := mem_allBufs.mp hx
    have := (h.placed.inside hblk hx).2.2
    omega
  exact (((h.indexed i).map Prod.snd).nodup_iff).mpr
    (haddrs.sublist (sublist_idleEntries i m.memBlockList))

/-- A buf that is taken out of an index is not in it any more. -/
theorem addr_ne_of_removeOpt {y : DynamicMemBuf} {index : SizeMapMemBuf}
    (hnodup : (index.entries.map Prod.snd).Nodup) (hmem : y.entry ∈ index.entries)
    {e : Nat × Nat} (he : e ∈ (removeOpt (some y) index).entries) : e.2 ≠ y.deviceAddr := by
  have hperm := MultiMap.perm_eraseFirst (p := fun e => decide (e = y.entry)) hmem
    fun d => by simp
  have hnodup := (hperm.map Prod.snd).nodup_iff.mp hnodup
  rw [List.map_cons, List.nodup_cons] at hnodup
  intro heq
  refine hnodup.1 ?_
  rw [show y.entry.2 = e.2 from heq.symm]
  exact List.mem_map_of_mem he

theorem mem_of_mem_removeOpt {b : Option DynamicMemBuf} {index : SizeMapMemBuf} {e : Nat × Nat}
    (he : e ∈ (removeOpt b index).entries) : e ∈ index.entries := by
  cases b with
  | none => exact he
  | some b => exact List.eraseP_sublist.mem he

namespace Opt

open DynamicMem.DynamicMemPoolBestFit

namespace DynamicMemPoolBestFitOpt

variable {s s' : DynamicMemPoolBestFitOpt} {p p' : DynamicMemPoolBestFit}
  {ptrs : Pointers} {b : Bool} {L R : List (DynamicMem.DynamicMemBlock DynamicMem.DynamicMemBuf)}
  {blk : DynamicMem.DynamicMemBlock DynamicMem.DynamicMemBuf}
  {l r : List DynamicMem.DynamicMemBuf} {x y : DynamicMem.DynamicMemBuf}

/-! ## The search -/

theorem findMemBlock_sees (h : Sees ptrs s p) (a : Nat) (b : Bool) :
    s.findMemBlock a b = (DynamicMem.findMemBlock a (p.mng b).memBlockList).map
      fun blk => ptrs.block blk.deviceAddrBase := by
  have htest : ∀ blk ∈ (p.mng b).memBlockList,
      (!decide (a < s.blockAddr (ptrs.block blk.deviceAddrBase))) =
        !decide (a < blk.deviceAddrBase) :=
    fun blk hblk => by rw [blockAddr_sees h hblk]
  obtain ⟨htake, -⟩ := takeWhile_map_of (g := fun q => !decide (a < s.blockAddr q))
    (f := fun blk : DynamicMem.DynamicMemBlock DynamicMem.DynamicMemBuf =>
      ptrs.block blk.deviceAddrBase) htest
  rw [findMemBlock, h.list, htake, List.getLast?_map]
  rfl

theorem findIn_sees (h : Sees ptrs s p) (hinv : PoolInv p)
    (hat : At (p.mng b).memBlockList L blk R l x r) :
    s.findIn x.deviceAddr b =
      some ⟨b, ptrs.block blk.deviceAddrBase, ptrs.buf x.deviceAddr⟩ := by
  obtain ⟨map, hget, hmap⟩ := (h.blocks b blk (Placed.mem_at hat)).block
  rw [hat.bufs, List.map_append, List.map_cons] at hmap
  simp only [DynamicMemPoolBestFitOpt.findIn, findMemBlock_sees h,
    findMemBlock_at (hinv.mngs b).placed hat, Option.map_some, Option.bind_eq_bind,
    Option.bind_some, hget, OrdMap.find?_middle hmap]

/-- A pool without a buf at the address is not where the search ends. -/
theorem findIn_sees_none (h : Sees ptrs s p) {a : Nat}
    (hnone : ∀ y, InPool p b y → y.deviceAddr ≠ a) : s.findIn a b = none := by
  rw [DynamicMemPoolBestFitOpt.findIn, findMemBlock_sees h]
  cases hfind : DynamicMem.findMemBlock a (p.mng b).memBlockList with
  | none => rfl
  | some blk =>
      have hblk := mem_of_findMemBlock hfind
      obtain ⟨map, hget, hmap⟩ := (h.blocks b blk hblk).block
      have hmiss : map.find? a = none := by
        refine OrdMap.find?_eq_none_iff.mpr fun q hq => ?_
        rw [hmap] at hq
        obtain ⟨y, hy, heq⟩ := List.mem_map.mp hq
        exact hnone y (mem_allBufs.mpr ⟨blk, hblk, hy⟩) (congrArg Prod.fst heq)
      simp only [Option.map_some, Option.bind_eq_bind, Option.bind_some, hget, hmiss,
        Option.bind_none]

theorem findByAddr_sees (h : Sees ptrs s p) (hinv : PoolInv p)
    (hat : At (p.mng b).memBlockList L blk R l x r) :
    s.findByAddr x.deviceAddr =
      some ⟨b, ptrs.block blk.deviceAddrBase, ptrs.buf x.deviceAddr⟩ := by
  have hfound := findIn_sees h hinv hat
  cases b with
  | false => rw [findByAddr, hfound, Option.some_or]
  | true =>
      have hx : InPool p true x :=
        mem_allBufs.mpr ⟨blk, Placed.mem_at hat, Placed.mem_buf_at hat⟩
      have hmiss : s.findIn x.deviceAddr false = none :=
        findIn_sees_none h fun y hy haddr => by cases (hinv.eq_of_addr hy hx haddr).1
      rw [findByAddr, hmiss, Option.none_or, hfound]

/-! ## The buf is joined -/

section Join

variable {index : Nat → SizeMapMemBuf} {prev next : Option DynamicMem.DynamicMemBuf}

/-- Entries stay good while the bufs they are of keep their addresses. -/
theorem Live.keep {ptr : Nat → Nat} {map map' : SizeMapMemBuf} (h : Live ptr map s)
    (hsub : ∀ e ∈ map'.entries, e ∈ map.entries)
    (hkeep : ∀ q z, s.bufs.get q = some z → (∃ e ∈ map'.entries, z.deviceAddr = e.2) →
      ∃ z', s'.bufs.get q = some z' ∧ z'.deviceAddr = z.deviceAddr) : Live ptr map' s' := by
  intro e he
  obtain ⟨z, hz, haddr⟩ := h e (hsub e he)
  obtain ⟨z', hz', haddr'⟩ := hkeep _ z hz ⟨e, he, haddr⟩
  exact ⟨z', hz', haddr'.trans haddr⟩

/-- A write to a buf leaves every buf at its address. -/
theorem exists_writeBuf {f : DynamicMemBuf → DynamicMemBuf} (hf : ∀ z, (f z).deviceAddr =
    z.deviceAddr) (q q' : Nat) (z : DynamicMemBuf) (hz : s.bufs.get q' = some z) :
    ∃ z', (s.writeBuf q f).bufs.get q' = some z' ∧ z'.deviceAddr = z.deviceAddr := by
  change ∃ z', (s.bufs.modify q f).get q' = some z' ∧ _
  rw [Heap.get_modify]
  split
  · rename_i hq
    rw [← hq, hz]
    exact ⟨f z, rfl, hf z⟩
  · exact ⟨z, hz, rfl⟩

theorem setBufs_self (hbufs : blk.blockAllMemBufMap = l ++ x :: r) :
    blk.setBufs (l ++ x :: r) = blk := by
  rw [← hbufs]
  rfl

/-- The part of `CombineMemBuf` that joins the buf with the next one. -/
theorem combineNext_sees (hblk : HasBlock ptrs s blk)
    (hindex : HasIndex ptrs.buf (s.mng b).idleMemBufs index)
    (hbufs : blk.blockAllMemBufMap = l ++ x :: (next.toList ++ r)) (hstream : blk.streamId < 128)
    (hsize : x.size + sizeOpt next < sizeBound) (hidle : ∀ y ∈ next, y.status = .idle)
    (hbusy : next = none → ∀ y ∈ r.head?, y.status ≠ .idle)
    (hlive : Live ptrs.buf (index blk.streamId) s)
    (hnodup : ((index blk.streamId).entries.map Prod.snd).Nodup)
    (hmem : ∀ y ∈ next, y.entry ∈ (index blk.streamId).entries) :
    ∃ s', s.combineNext x.deviceAddr
        ⟨b, ptrs.block blk.deviceAddrBase, ptrs.buf x.deviceAddr⟩ .idle = .ok s' ∧
      Within (ptrs.block blk.deviceAddrBase) b s s' ∧
      HasBlock ptrs s' (blk.setBufs (l ++ { x with size := x.size + sizeOpt next } :: r)) ∧
      HasIndex ptrs.buf (s'.mng b).idleMemBufs (Function.update index blk.streamId
        (removeOpt next (index blk.streamId))) ∧
      Live ptrs.buf (removeOpt next (index blk.streamId)) s' ∧
      (s'.mng b).mps = (s.mng b).mps := by
  obtain ⟨map, hread, -, hupper, -⟩ := hblk.readBlock hbufs
  cases next with
  | none =>
      -- nothing is behind the buf, or what is behind it is not idle
      refine ⟨s, ?_, Within.refl _ b s, ?_, hindex.of_eq fun i => ?_, hlive, rfl⟩
      · rw [combineNext, hread]
        dsimp only [bind, Except.bind]
        rw [hupper]
        cases hhead : ((none : Option DynamicMem.DynamicMemBuf).toList ++ r).head? with
        | none => rfl
        | some y =>
            have hr : y ∈ r := List.mem_of_mem_head? hhead
            have hy : y ∈ blk.blockAllMemBufMap := by
              rw [hbufs]
              simp [hr]
            dsimp only [Option.map_some]
            rw [hblk.readBuf hy]
            dsimp only [bufAt]
            rw [if_neg (hbusy rfl y hhead)]
      · show HasBlock ptrs s (blk.setBufs (l ++ x :: r))
        rw [setBufs_self (show blk.blockAllMemBufMap = l ++ x :: r from hbufs)]
        exact hblk
      · exact congrFun (Function.update_eq_self blk.streamId index) i
  | some y =>
      -- the buf grows, its neighbour leaves the index and then the block
      have hx : x ∈ blk.blockAllMemBufMap := by
        rw [hbufs]
        simp
      have hy : y ∈ blk.blockAllMemBufMap := by
        rw [hbufs]
        simp
      have hxget := hblk.bufs x hx
      have hadd : addSize x.size y.size = x.size + y.size := addSize_eq hsize
      have hblk₁ := hblk.writeBuf (f := fun b => { b with size := addSize b.size y.size })
        (z := { x with size := x.size + y.size }) hbufs
        (by simp only [bufAt, hadd]) rfl
      have hwithin₁ := Within.writeBuf (b := b) hxget rfl
        fun b => { b with size := addSize b.size y.size }
      have hlive₁ : Live ptrs.buf (index blk.streamId) (s.writeBuf (ptrs.buf x.deviceAddr)
          fun b => { b with size := addSize b.size y.size }) :=
        hlive.keep (fun e he => he) fun q z hz _ => exists_writeBuf
          (f := fun b => { b with size := addSize b.size y.size }) (fun _ => rfl) _ q z hz
      obtain ⟨map', herase, hmap'⟩ := eraseMemBufByStatus_sees (b := b) (s := s.writeBuf
        (ptrs.buf x.deviceAddr) fun b => { b with size := addSize b.size y.size }) hindex hstream
        hlive₁ (hmem y rfl)
      have hblk₂ := hblk₁.of_heap (t := (s.writeBuf (ptrs.buf x.deviceAddr)
        fun b => { b with size := addSize b.size y.size }).setSizeMap b .idle blk.streamId map')
        (bufs_setSizeMap ..) (blocks_setSizeMap ..)
      have hwithin₂ := hwithin₁.trans (Within.setSizeMap (ptrs.block blk.deviceAddrBase) b
        blk.streamId map' _)
      have hbufs₂ : (blk.setBufs (l ++ { x with size := x.size + y.size } ::
          ((some y).toList ++ r))).blockAllMemBufMap =
          (l ++ [{ x with size := x.size + y.size }]) ++ y :: r := by
        rw [List.append_assoc]
        rfl
      have hyget := hblk₂.bufs y (by rw [hbufs₂]; simp)
      have hblk₃ := hblk₂.deleteMemBuf hbufs₂
      rw [List.append_assoc] at hblk₃
      refine ⟨_, ?_, hwithin₂.trans (Within.deleteMemBuf hyget rfl y.deviceAddr), hblk₃, ?_, ?_, ?_⟩
      · rw [combineNext, hread]
        dsimp only [bind, Except.bind]
        rw [hupper]
        dsimp only [Option.toList_some, List.cons_append, List.head?_cons, Option.map_some]
        rw [hblk.readBuf hy]
        dsimp only [bufAt]
        rw [if_pos (hidle y rfl), herase]
        rfl
      · rw [mng_deleteMemBuf, idleMemBufs_setSizeMap]
        exact hindex.set hstream hmap'
      · -- the pointer that dies belongs to the entry that was erased
        refine hlive₁.keep (fun e he => mem_of_mem_removeOpt he) fun q z hz hentry => ?_
        obtain ⟨e, he, haddr⟩ := hentry
        refine ⟨z, ?_, rfl⟩
        change (((s.writeBuf _ _).setSizeMap b .idle blk.streamId map').bufs.delete _).get q = _
        rw [Heap.get_delete_ne, bufs_setSizeMap, hz]
        rintro rfl
        rw [bufs_setSizeMap, hz] at hyget
        cases hyget
        exact addr_ne_of_removeOpt hnodup (hmem y rfl) he haddr.symm
      · rw [mng_deleteMemBuf, mps_setSizeMap, mng_writeBuf]

/-- The buf is entered and counted. -/
theorem putBack_sees (hblk : HasBlock ptrs s blk)
    (hindex : HasIndex ptrs.buf (s.mng b).idleMemBufs index) (hx : x ∈ blk.blockAllMemBufMap)
    (hstream : blk.streamId < 128) :
    ∃ s', s.putBack (ptrs.buf x.deviceAddr) b .idle blk.streamId = .ok s' ∧
      Within (ptrs.block blk.deviceAddrBase) b s s' ∧ HasBlock ptrs s' blk ∧
      HasIndex ptrs.buf (s'.mng b).idleMemBufs (Function.update index blk.streamId
        ((index blk.streamId).emplace x.size x.deviceAddr)) ∧
      (s'.mng b).mps = (s.mng b).mps.addIdle x.size := by
  obtain ⟨map, hadd, hmap⟩ := addMemBuf_sees hindex hstream x.size x.deviceAddr
  refine ⟨(s.setSizeMap b .idle blk.streamId map).setMps b (DeviceState.enter .idle x.size), ?_,
    (Within.setSizeMap _ b blk.streamId map s).trans (Within.setMps _ b _ _),
    (hblk.of_heap (bufs_setSizeMap ..) (blocks_setSizeMap ..)).of_heap (bufs_setMps ..)
      (blocks_setMps ..), ?_, ?_⟩
  · rw [putBack, hblk.readBuf hx]
    dsimp only [bind, Except.bind, bufAt]
    rw [hadd]
  · rw [idleMemBufs_setMps, idleMemBufs_setSizeMap]
    exact hindex.set hstream hmap
  · rw [mps_setMps, mps_setSizeMap]
    rfl

/-- `CombineMemBufForward`: the buf is joined with the one before it, and put back. -/
theorem combineMemBufForward_sees (hblk : HasBlock ptrs s blk)
    (hindex : HasIndex ptrs.buf (s.mng b).idleMemBufs index)
    (hbufs : blk.blockAllMemBufMap = (l ++ prev.toList) ++ x :: r) (hstream : blk.streamId < 128)
    (hxidle : x.status = .idle) (hsize : sizeOpt prev + x.size < sizeBound)
    (hidle : ∀ w ∈ prev, w.status = .idle)
    (hbusy : prev = none → ∀ w ∈ l.getLast?, w.status ≠ .idle)
    (hlive : Live ptrs.buf (index blk.streamId) s)
    (hmem : ∀ w ∈ prev, w.entry ∈ (index blk.streamId).entries) :
    ∃ s', s.combineMemBufForward x.deviceAddr
        ⟨b, ptrs.block blk.deviceAddrBase, ptrs.buf x.deviceAddr⟩ .idle = .ok s' ∧
      Within (ptrs.block blk.deviceAddrBase) b s s' ∧
      HasBlock ptrs s' (blk.setBufs (l ++ joined prev x none :: r)) ∧
      HasIndex ptrs.buf (s'.mng b).idleMemBufs (Function.update index blk.streamId
        ((removeOpt prev (index blk.streamId)).emplace (joined prev x none).size
          (joined prev x none).deviceAddr)) ∧
      (s'.mng b).mps = (s.mng b).mps.addIdle (joined prev x none).size := by
  obtain ⟨map, hread, -, -, hbelow⟩ := hblk.readBlock hbufs
  have hx : x ∈ blk.blockAllMemBufMap := by
    rw [hbufs]
    simp
  cases prev with
  | none =>
      -- no idle buf is in front, so the freed one goes into the index as it is
      have hjoined : joined none x none = x := by
        cases x
        simp only [joined, sizeOpt, DynamicMem.DynamicMemBuf.mk.injEq]
        exact ⟨rfl, hxidle.symm, by omega⟩
      rw [Option.toList_none, List.append_nil] at hbufs hbelow
      obtain ⟨s', hs', hwithin, hblk', hindex', hmps⟩ := putBack_sees hblk hindex hx hstream
      refine ⟨s', ?_, hwithin, ?_, ?_, ?_⟩
      · rw [combineMemBufForward, hread]
        dsimp only [bind, Except.bind]
        rw [hbelow]
        cases hlast : l.getLast? with
        | none => exact hs'
        | some w =>
            have hl : w ∈ l := List.mem_of_getLast? hlast
            have hw : w ∈ blk.blockAllMemBufMap := by
              rw [hbufs]
              simp [hl]
            dsimp only [Option.map_some]
            rw [hblk.readBuf hw]
            dsimp only [bufAt]
            rw [if_neg (hbusy rfl w hlast)]
            exact hs'
      · rw [hjoined, setBufs_self hbufs]
        exact hblk'
      · rw [hjoined]
        exact hindex'
      · rw [hjoined]
        exact hmps
  | some w =>
      have hw : w ∈ blk.blockAllMemBufMap := by
        rw [hbufs]
        simp
      -- the one in front leaves the index, grows, and comes back with its new size
      obtain ⟨map', herase, hmap'⟩ := eraseMemBufByStatus_sees hindex hstream hlive (hmem w rfl)
      have hindex₁ : HasIndex ptrs.buf
          ((s.setSizeMap b .idle blk.streamId map').mng b).idleMemBufs
          (Function.update index blk.streamId (removeOpt (some w) (index blk.streamId))) := by
        rw [idleMemBufs_setSizeMap]
        exact hindex.set hstream hmap'
      have hblk₁ := hblk.of_heap (t := s.setSizeMap b .idle blk.streamId map')
        (bufs_setSizeMap ..) (blocks_setSizeMap ..)
      have hwithin₁ := Within.setSizeMap (ptrs.block blk.deviceAddrBase) b blk.streamId map' s
      generalize hs₁ : s.setSizeMap b .idle blk.streamId map' = s₁
        at herase hindex₁ hblk₁ hwithin₁
      have hmps₁ : (s₁.mng b).mps = (s.mng b).mps := by
        rw [← hs₁, mps_setSizeMap]
      have hbufs₁ : blk.blockAllMemBufMap = l ++ w :: (x :: r) := by
        rw [hbufs, List.append_assoc]
        rfl
      have hadd : addSize w.size x.size = w.size + x.size := addSize_eq hsize
      have hblk₂ := hblk₁.writeBuf (f := fun b => { b with size := addSize b.size x.size })
        (z := { w with size := w.size + x.size }) hbufs₁ (by simp only [bufAt, hadd]) rfl
      have hwithin₂ := hwithin₁.trans (Within.writeBuf (b := b) (hblk₁.bufs w hw) rfl
        fun b => { b with size := addSize b.size x.size })
      have hbufs₂ : (blk.setBufs (l ++ { w with size := w.size + x.size } :: (x :: r))
          ).blockAllMemBufMap = (l ++ [{ w with size := w.size + x.size }]) ++ x :: r := by
        rw [List.append_assoc]
        rfl
      have hxget := hblk₂.bufs x (by rw [hbufs₂]; simp)
      have hblk₃ := hblk₂.deleteMemBuf hbufs₂
      have hwithin₃ := hwithin₂.trans (Within.deleteMemBuf hxget rfl x.deviceAddr)
      rw [List.append_assoc] at hblk₃
      have hjoined : ({ w with size := w.size + x.size } : DynamicMem.DynamicMemBuf) =
          joined (some w) x none := by
        simp only [joined, sizeOpt, Option.map_some, Option.getD_some, Nat.add_zero,
          ← hidle w rfl]
      have hindex₃ := hindex₁
      obtain ⟨s', hs', hwithin, hblk', hindex', hmps⟩ := putBack_sees (b := b)
        (x := { w with size := w.size + x.size }) hblk₃ hindex₃ (by
          show _ ∈ l ++ ([{ w with size := w.size + x.size }] ++ r)
          simp) hstream
      refine ⟨s', ?_, hwithin₃.trans hwithin, ?_, ?_, ?_⟩
      · rw [combineMemBufForward, hread]
        dsimp only [bind, Except.bind]
        rw [hbelow]
        dsimp only [Option.toList_some]
        rw [List.getLast?_concat]
        dsimp only [Option.map_some]
        rw [hblk.readBuf hw]
        dsimp only [bufAt]
        rw [if_pos (hidle w rfl), herase]
        dsimp only
        rw [hblk₁.readBuf hx]
        exact hs'
      · rw [← hjoined]
        exact hblk'
      · rw [← hjoined]
        change HasIndex ptrs.buf _ (Function.update (Function.update index blk.streamId
          (removeOpt (some w) (index blk.streamId))) blk.streamId ((Function.update index
            blk.streamId (removeOpt (some w) (index blk.streamId)) blk.streamId).emplace
              (w.size + x.size) w.deviceAddr)) at hindex'
        rw [Function.update_self, Function.update_idem] at hindex'
        exact hindex'
      · rw [hmps, ← hjoined, mng_deleteMemBuf, mng_writeBuf, hmps₁]

end Join

/-- `FreeTensorMem` of both classes, for a buf in use. No pointer changes. -/
theorem freeTensorMem_sees (h : Sees ptrs s p) (hinv : PoolInv p) (hx : InPool p b x)
    (hused : x.status = .used) (hp' : p.freeTensorMem x.deviceAddr = some p') :
    ∃ s', s.freeTensorMem x.deviceAddr = .ok s' ∧ Sees ptrs s' p' := by
  obtain ⟨p'', L, blk, R, l, prev, next, r, hp'', hfreed, he⟩ := freeTensorMem_spec hinv hx hused
  rw [hp'] at hp''
  cases hp''
  have hat := hfreed.place
  have hblkMem := Placed.mem_at hat
  have hblk := h.blocks b blk hblkMem
  have hxmem := Placed.mem_buf_at hat
  have hstream := h.streams b blk hblkMem
  have hlaid := laid_of_inv hinv
  have hsize := (hinv.mngs b).size_lt prev next hat
  -- the status and the statistics
  have hblk₁ := hblk.writeBuf (f := fun b => { b with status := .idle })
    (z := { x with status := .idle }) hat.bufs rfl rfl
  have hwithin₁ := (Within.writeBuf (b := b) (hblk.bufs x hxmem) rfl
    fun b => { b with status := .idle }).trans
      (Within.setMps _ b (DeviceState.leave .used x.size) _)
  have hlive₁ : Live ptrs.buf (sizeMapOf (p.mng b).idleMemBufs blk.streamId)
      (s.writeBuf (ptrs.buf x.deviceAddr) fun b => { b with status := .idle }) := by
    intro e hentry
    obtain ⟨y, hy, haddr⟩ := hlaid.known b blk.streamId e hentry
    obtain ⟨blk', hblk', hy⟩ := mem_allBufs.mp hy
    have hyget := (h.blocks b blk' hblk').bufs y hy
    obtain ⟨z, hz, hzaddr⟩ := exists_writeBuf (f := fun b => { b with status := .idle })
      (fun _ => rfl) (ptrs.buf x.deviceAddr) _ _ hyget
    rw [← haddr]
    exact ⟨z, hz, hzaddr⟩
  generalize hs₁ : (s.writeBuf (ptrs.buf x.deviceAddr) fun b => { b with status := .idle }).setMps b
    (DeviceState.leave .used x.size) = s₁ at hwithin₁
  have hblk₁ : HasBlock ptrs s₁ (blk.setBufs ((l ++ prev.toList) ++
      { x with status := .idle } :: (next.toList ++ r))) := by
    rw [← hs₁]
    exact hblk₁.of_heap (bufs_setMps ..) (blocks_setMps ..)
  have hindex₁ : HasIndex ptrs.buf (s₁.mng b).idleMemBufs (sizeMapOf (p.mng b).idleMemBufs) := by
    rw [← hs₁, idleMemBufs_setMps]
    exact h.index b
  have hmps₁ : (s₁.mng b).mps = (p.mng b).mps.subUsed x.size := by
    rw [← hs₁, mps_setMps, mng_writeBuf, h.mps]
    rfl
  have hlive₁ : Live ptrs.buf (sizeMapOf (p.mng b).idleMemBufs blk.streamId) s₁ := by
    rw [← hs₁, Live, bufs_setMps]
    exact hlive₁
  -- the next buf
  have hused' := (hinv.mngs b).indexed_used hat hused hfreed.prevIdle hfreed.nextIdle
  rw [← List.append_assoc] at hused'
  have hnextMem : ∀ y ∈ next, y.entry ∈
      (sizeMapOf (p.mng b).idleMemBufs blk.streamId).entries := by
    rintro y rfl
    exact hused'.mem_iff.mpr (by simp)
  have hprevMem : ∀ w ∈ prev, w.entry ∈
      (removeOpt next (sizeMapOf (p.mng b).idleMemBufs blk.streamId)).entries := by
    rintro w rfl
    exact (perm_removeOpt hused').mem_iff.mpr (by simp)
  obtain ⟨s₂, hs₂, hwithin₂, hblk₂, hindex₂, hlive₂, hmps₂⟩ := combineNext_sees (b := b) hblk₁
    hindex₁ rfl hstream
    (show x.size + sizeOpt next < sizeBound by omega) hfreed.nextIdle hfreed.nextBusy hlive₁
    ((hinv.mngs b).nodup_index _) hnextMem
  -- the one before
  have hlive₂ : Live ptrs.buf (Function.update (sizeMapOf (p.mng b).idleMemBufs) blk.streamId
      (removeOpt next (sizeMapOf (p.mng b).idleMemBufs blk.streamId)) blk.streamId) s₂ := by
    rw [Function.update_self]
    exact hlive₂
  have hprevMem : ∀ w ∈ prev, w.entry ∈ (Function.update (sizeMapOf (p.mng b).idleMemBufs)
      blk.streamId (removeOpt next (sizeMapOf (p.mng b).idleMemBufs blk.streamId))
        blk.streamId).entries := by
    rw [Function.update_self]
    exact hprevMem
  obtain ⟨s₃, hs₃, hwithin₃, hblk₃, hindex₃, hmps₃⟩ := combineMemBufForward_sees (b := b) hblk₂
    hindex₂ rfl hstream rfl
    (show sizeOpt prev + (x.size + sizeOpt next) < sizeBound by omega) hfreed.prevIdle
    hfreed.prevBusy hlive₂ hprevMem
  have hs₂ : s₁.combineNext x.deviceAddr
      ⟨b, ptrs.block blk.deviceAddrBase, ptrs.buf x.deviceAddr⟩ .idle = .ok s₂ := hs₂
  refine ⟨s₃, ?_, h.replace hlaid hat hfreed.blocks hfreed.unitSize he
    ((hwithin₁.trans hwithin₂).trans hwithin₃) hblk₃ ?_ ?_ rfl fun _ _ _ => rfl⟩
  · rw [freeTensorMem, combineMemBuf, findByAddr_sees h hinv hat]
    dsimp only
    rw [combineAt, hblk.readBuf hxmem]
    dsimp only [bind, Except.bind, bufAt]
    rw [hs₁, hs₂]
    exact hs₃
  · change HasIndex ptrs.buf (s₃.mng b).idleMemBufs (Function.update (Function.update
      (sizeMapOf (p.mng b).idleMemBufs) blk.streamId
      (removeOpt next (sizeMapOf (p.mng b).idleMemBufs blk.streamId))) blk.streamId
      ((removeOpt prev (Function.update (sizeMapOf (p.mng b).idleMemBufs) blk.streamId
        (removeOpt next (sizeMapOf (p.mng b).idleMemBufs blk.streamId)) blk.streamId)).emplace
          (joined prev x next).size (joined prev x next).deviceAddr)) at hindex₃
    rw [Function.update_self, Function.update_idem] at hindex₃
    refine hindex₃.of_eq fun i => ?_
    rw [hfreed.index]
    by_cases hi : i = blk.streamId
    · subst hi
      rw [if_pos rfl, Function.update_self]
    · rw [if_neg hi, Function.update_of_ne hi]
  · rw [hmps₃, hmps₂, hmps₁, hfreed.mps]
    rfl

end DynamicMemPoolBestFitOpt

end Opt

end Ccbase.DynamicMem
