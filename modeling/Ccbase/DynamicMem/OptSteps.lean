import Ccbase.DynamicMem.OptWrites

/-!
# The operations as writes

No operation goes past the end of a vector as long as the vectors for the statuses
that it gives have an element for every stream in use. What it does to the pool is
then a sequence of writes.
-/

namespace Ccbase.DynamicMem.Opt

open Ccbase.Lib

/-- No subscript is past the end, and the value has the property. -/
abbrev InBounds {α : Type} (P : α → Prop) (x : Except Fault α) : Prop :=
  Ends (fun e => e ≠ Fault.index) P x

namespace DynamicMemPoolBestFitOpt

variable {s s' : DynamicMemPoolBestFitOpt} {ok : DynamicMemBufStatus → Prop}
  {st : DynamicMemBufStatus} {b : Bool} {a i p q size : Nat} {x : Place}

/-- The vectors for the statuses that may be given have an element for every stream. -/
structure Ready (ok : DynamicMemBufStatus → Prop) (s : DynamicMemPoolBestFitOpt) : Prop where
  streams : Streams s
  vectors : ∀ st, ok st → st ≠ .used → ∀ b,
    (s.mng b).memBlocks.length ≤ ((s.mng b).container st).length

theorem Ready.writes (h : Ready ok s) (hw : Writes ok s s') : Ready ok s' := by
  refine ⟨hw.streams h.streams, fun st hst hne b => ?_⟩
  rw [hw.memBlocks, hw.container]
  exact h.vectors st hst hne b

/-- The blocks and their lists are as before. -/
structure SameBlocks (s s' : DynamicMemPoolBestFitOpt) : Prop where
  blocks : s'.blocks = s.blocks
  memBlockList : ∀ b, (s'.mng b).memBlockList = (s.mng b).memBlockList

/-- The place of the buf that starts at an address. -/
structure At (a : Nat) (x : Place) (s : DynamicMemPoolBestFitOpt) : Prop where
  listed : x.memBlock ∈ (s.mng x.persistent).memBlockList
  mapped : ∃ blk, s.blocks.get x.memBlock = some blk ∧
    blk.blockAllMemBufMap.find? a = some x.memBuf

theorem At.same (h : At a x s) (hsame : SameBlocks s s') : At a x s' := by
  refine ⟨?_, ?_⟩
  · rw [hsame.memBlockList]
    exact h.listed
  · rw [hsame.blocks]
    exact h.mapped

/-! ## Reads, and the vectors of maps -/

theorem readBuf_in : InBounds (fun y => s.bufs.get p = some y) (s.readBuf p) := by
  rw [readBuf]
  cases s.bufs.get p with
  | none => exact fun h => by cases h
  | some y => rfl

theorem readBlock_in : InBounds (fun blk => s.blocks.get q = some blk) (s.readBlock q) := by
  rw [readBlock]
  cases s.blocks.get q with
  | none => exact fun h => by cases h
  | some blk => rfl

theorem write_mps (b : Bool) (f : DeviceState → DeviceState) (s : DynamicMemPoolBestFitOpt) :
    Write ok s (s.setMps b f) := by
  refine .rest _ (bufs_setMng ..) (blocks_setMng ..) fun b' => ?_
  rw [setMps, mng_setMng]
  split
  · rename_i hb
    rw [hb]
    exact ⟨_, _, rfl⟩
  · exact ⟨_, _, rfl⟩

theorem sameBlocks_mps (b : Bool) (f : DeviceState → DeviceState)
    (s : DynamicMemPoolBestFitOpt) : SameBlocks s (s.setMps b f) := by
  refine ⟨blocks_setMng .., fun b' => ?_⟩
  rw [setMps, mng_setMng]
  split
  · rename_i hb
    rw [hb]
  · rfl

theorem addMemBuf_in (h : Ready ok s) (hst : ok st) (hp : OkAt ok p s)
    (hi : i < (s.mng b).memBlocks.length) :
    InBounds (Writes ok s) (s.addMemBuf b st i size p) := by
  rw [addMemBuf]
  split
  · exact .refl s
  · rename_i hne
    have hlt : i < ((s.mng b).container st).length := hi.trans_le (h.vectors st hst hne b)
    refine (subscript_ends hlt).bind fun map hmap => .of_write (.sizeMap b st i _ fun e he => ?_)
    rcases List.mem_cons.mp ((map.perm_emplace size p).mem_iff.mp he) with rfl | he
    · exact Or.inr ⟨hne, hst, hp⟩
    · exact Or.inl ⟨map, hmap, he⟩

theorem eraseMemBufByStatus_in (ok : DynamicMemBufStatus → Prop)
    (hi : i < ((s.mng b).container st).length) :
    InBounds (fun s' => Writes ok s s' ∧ SameBlocks s s')
      (s.eraseMemBufByStatus size a b st i) := by
  refine (subscript_ends hi).bind fun map hmap => ?_
  split
  · exact ⟨.refl s, rfl, fun _ => rfl⟩
  · refine readBuf_in.bind fun _ _ => ⟨.of_write (.sizeMap b st i _ fun e he => ?_), ?_, ?_⟩
    · exact Or.inl ⟨map, hmap, List.mem_of_mem_eraseP he⟩
    · exact blocks_setSizeMap ..
    · exact fun b' => memBlockList_setSizeMap ..

/-! ## Allocation -/

theorem splitMemBuf_in (h : Ready ok s) (hp : OkAt ok p s)
    (hi : i < (s.mng b).memBlocks.length) : InBounds (Writes ok s) (s.splitMemBuf size p b i) := by
  refine readBuf_in.bind fun y hy => readBlock_in.bind fun _ _ => ?_
  have hsize : Write ok s (s.writeBuf p fun b => { b with size := size }) :=
    .buf p _ (fun _ => ⟨rfl, rfl⟩) fun _ => Or.inl rfl
  have hnew := (Writes.of_write hsize).write (.new
    { deviceAddr := addSize y.deviceAddr size, memBlockPtr := y.memBlockPtr
      status := y.status, size := subSize y.size size } (hp y hy))
  refine (addMemBuf_in (h.writes hnew) (hp y hy) ?_ ?_).mono fun s' hadd => hnew.trans hadd
  · intro z hz
    obtain rfl : _ = z := Option.some.inj ((Heap.get_new_self ..).symm.trans hz)
    exact hp y hy
  · rw [hnew.memBlocks]
    exact hi

theorem divideMemBuf_in {split : Bool} (h : Ready ok s) (hp : OkAt ok p s)
    (hi : i < (s.mng b).memBlocks.length) :
    InBounds (Writes ok s) (s.divideMemBuf split size p b i) := by
  rw [divideMemBuf]
  split
  · exact splitMemBuf_in h hp hi
  · exact .refl s

theorem findMemBufInSpecifiedMng_in (h : Ready ok s) (hused : ok .used) (hst : Entries ok st s)
    (hvec : i < ((s.mng b).container st).length) (hi : i < (s.mng b).memBlocks.length) :
    InBounds (fun r => Writes ok s r.2) (s.findMemBufInSpecifiedMng size b st i) := by
  refine (subscript_ends hvec).bind fun map hmap => ?_
  cases hlow : map.lowerBound size with
  | none => exact .refl s
  | some iter =>
      have hiter := hst b map hmap iter (MultiMap.mem_of_lowerBound hlow)
      have herase : Writes ok s (s.setSizeMap b st i (map.eraseLowerBound size)) :=
        .of_write (.sizeMap b st i _ fun e he => Or.inl ⟨map, hmap, List.mem_of_mem_eraseP he⟩)
      refine readBuf_in.bind fun y _ => ?_
      have hi' : i < ((s.setSizeMap b st i (map.eraseLowerBound size)).mng b).memBlocks.length := by
        rw [herase.memBlocks]
        exact hi
      refine (divideMemBuf_in (h.writes herase) (herase.okAt hiter) hi').bind fun s' hdivide => ?_
      have hs₁ := herase.trans hdivide
      have hs₂ := hs₁.write (.buf iter.2 (fun b => { b with status := .used })
        (fun _ => ⟨rfl, rfl⟩) fun _ => Or.inr hused)
      refine readBuf_in.bind fun z _ => ?_
      exact hs₂.write (write_mps b _ _)

theorem findMemBufByStatus_in (h : Ready ok s) (hused : ok .used) (hst : Entries ok st s)
    (hvec : ∀ b, i < ((s.mng b).container st).length)
    (hi : ∀ b, i < (s.mng b).memBlocks.length) :
    InBounds (fun r => Writes ok s r.2) (s.findMemBufByStatus size b st i) := by
  refine (findMemBufInSpecifiedMng_in h hused hst (hvec b) (hi b)).bind fun r hr => ?_
  obtain ⟨addr, s₁⟩ := r
  dsimp only
  split
  · refine (findMemBufInSpecifiedMng_in (h.writes hr) hused (hr.entries hst) ?_ ?_).mono
      fun r' hr' => hr.trans hr'
    · rw [hr.container]
      exact hvec _
    · rw [hr.memBlocks]
      exact hi _
  · exact hr

theorem addMemBlock_in (ok : DynamicMemBufStatus → Prop) {blk : DynamicMemBlock}
    (hi : i < (s.mng b).memBlocks.length)
    (hstream : blk.streamId < (s.mng b).memBlocks.length)
    (hempty : blk.blockAllMemBufMap.entries = []) :
    InBounds (Writes ok s) (s.addMemBlock blk b i) := by
  obtain ⟨s', hadd⟩ : ∃ s', s.addMemBlock blk b i = .ok s' := by
    rw [addMemBlock, subscript_of_lt hi]
    exact ⟨_, rfl⟩
  rw [hadd]
  exact .of_write (.block b blk i s' hstream hempty hadd)

theorem createMemBlockAndMemBuf_in {sourceAddr sourceSize : Nat} (h : Ready ok s)
    (hused : ok .used) (hst : ok st) (hi : i < (s.mng b).memBlocks.length) :
    InBounds (fun r => Writes ok s r.2)
      (s.createMemBlockAndMemBuf size b sourceAddr sourceSize st i) := by
  refine (addMemBlock_in ok hi hi rfl).bind fun s₁ hs₁ => ?_
  have hs₂ := hs₁.write (.new { deviceAddr := sourceAddr, memBlockPtr := s.blocks.next
                                status := st, size := sourceSize } hst)
  have hp : OkAt ok s₁.bufs.next (s₁.newMemBuf
      { deviceAddr := sourceAddr, memBlockPtr := s.blocks.next, status := st
        size := sourceSize }) := by
    intro z hz
    obtain rfl : _ = z := Option.some.inj ((Heap.get_new_self ..).symm.trans hz)
    exact hst
  refine (divideMemBuf_in (h.writes hs₂) hp ?_).bind fun s₃ hs₃ => ?_
  · rw [hs₂.memBlocks]
    exact hi
  · have hs₄ := (hs₂.trans hs₃).write (.buf s₁.bufs.next (fun b => { b with status := .used })
      (fun _ => ⟨rfl, rfl⟩) fun _ => Or.inr hused)
    refine readBuf_in.bind fun z _ => ?_
    exact hs₄.write (write_mps b (fun mps => (mps.addTotal sourceSize).addUsed z.size) _)

/-! ## Free -/

/-- Behind another key of its map, a buf is where it was. -/
theorem At.delete {q' a' p' : Nat} (h : At a x s) (hne : a ≠ a') :
    At a x (s.deleteMemBuf q' a' p') := by
  obtain ⟨blk, hblk, hp⟩ := h.mapped
  obtain ⟨blk', hblk', -, hmap⟩ := get_blocks_deleteMemBuf q' a' p' hblk
  exact ⟨h.listed, blk', hblk', by rw [hmap, if_neg fun hqa => hne hqa.2, hp]⟩

/-- What a vector must have for a block that is listed. -/
theorem Ready.lt_container (h : Ready ok s) (hst : ok st) (hne : st ≠ .used) (hat : At a x s)
    {blk : DynamicMemBlock} (hblk : s.blocks.get x.memBlock = some blk) :
    blk.streamId < (s.mng x.persistent).memBlocks.length ∧
      blk.streamId < ((s.mng x.persistent).container st).length := by
  obtain ⟨blk', hblk', hlt⟩ := h.streams x.persistent x.memBlock hat.listed
  rw [hblk] at hblk'
  cases hblk'
  exact ⟨hlt, hlt.trans_le (h.vectors st hst hne x.persistent)⟩

theorem combineNext_in (h : Ready ok s) (hst : ok st) (hne : st ≠ .used) (hat : At a x s) :
    InBounds (fun s' => Writes ok s s' ∧ At a x s') (s.combineNext a x st) := by
  refine readBlock_in.bind fun blk hblk => ?_
  cases hnext : blk.blockAllMemBufMap.upper? a with
  | none => exact ⟨.refl s, hat⟩
  | some next =>
      refine readBuf_in.bind fun y _ => ?_
      dsimp only
      split
      · have hs₁ : Writes ok s (s.writeBuf x.memBuf fun b =>
            { b with size := addSize b.size y.size }) :=
          .of_write (.buf _ _ (fun _ => ⟨rfl, rfl⟩) fun _ => Or.inl rfl)
        have hlt : blk.streamId < (((s.writeBuf x.memBuf fun b =>
            { b with size := addSize b.size y.size }).mng x.persistent).container st).length :=
          (h.lt_container hst hne hat hblk).2
        refine (eraseMemBufByStatus_in ok hlt).bind fun s₂ hs₂ => ?_
        obtain ⟨hs₂, hsame⟩ := hs₂
        have hat₁ : At a x (s.writeBuf x.memBuf fun b =>
            { b with size := addSize b.size y.size }) := ⟨hat.listed, hat.mapped⟩
        have hat₂ := hat₁.same hsame
        obtain ⟨hmem, hlt⟩ := OrdMap.upper?_eq_some hnext
        refine ⟨(hs₁.trans hs₂).write (.delete x.persistent x.memBlock next.1 next.2 blk
          hat₂.listed ?_ ?_), hat₂.delete (by omega)⟩
        · rw [hsame.blocks]
          exact hblk
        · exact OrdMap.find?_eq_some_iff.mpr hmem
      · exact ⟨.refl s, hat⟩

theorem putBack_in (h : Ready ok s) (hst : ok st) (hp : OkAt ok p s)
    (hi : i < (s.mng b).memBlocks.length) : InBounds (Writes ok s) (s.putBack p b st i) := by
  refine readBuf_in.bind fun y _ => (addMemBuf_in h hst hp hi).bind fun s₁ hs₁ => ?_
  exact hs₁.write (write_mps b _ _)

theorem combineMemBufForward_in (h : Ready ok s) (hst : ok st) (hne : st ≠ .used)
    (hat : At a x s) (hp : OkAt ok x.memBuf s) :
    InBounds (Writes ok s) (s.combineMemBufForward a x st) := by
  refine readBlock_in.bind fun blk hblk => ?_
  obtain ⟨hlt, hvec⟩ := h.lt_container hst hne hat hblk
  cases hprev : blk.blockAllMemBufMap.below? a with
  | none => exact putBack_in h hst hp hlt
  | some prev =>
      refine readBuf_in.bind fun y hy => ?_
      dsimp only
      split
      · rename_i hstatus
        refine (eraseMemBufByStatus_in ok hvec).bind fun s₁ hs₁ => readBuf_in.bind fun z _ => ?_
        obtain ⟨hs₁, hsame⟩ := hs₁
        have hs₂ := hs₁.write (.buf prev.2 (fun b => { b with size := addSize b.size z.size })
          (fun _ => ⟨rfl, rfl⟩) fun _ => Or.inl rfl)
        obtain ⟨hlisted, blk', hblk', hfind⟩ := hat.same hsame
        have hs₃ := hs₂.write (.delete x.persistent x.memBlock a x.memBuf blk' hlisted hblk' hfind)
        have hprev : OkAt ok prev.2 s := by
          intro w hw
          rw [hy] at hw
          cases hw
          rw [hstatus]
          exact hst
        refine (putBack_in (h.writes hs₃) hst (hs₃.okAt hprev) ?_).mono
          fun s' hput => hs₃.trans hput
        rw [hs₃.memBlocks]
        exact hlt
      · exact putBack_in h hst hp hlt

theorem combineAt_in {origin : DynamicMemBufStatus} (h : Ready ok s) (hst : ok st)
    (hne : st ≠ .used) (hat : At a x s) : InBounds (Writes ok s) (s.combineAt a origin st x) := by
  refine readBuf_in.bind fun y _ => ?_
  have hs₁ : Writes ok s (s.writeBuf x.memBuf fun b => { b with status := st }) :=
    .of_write (.buf _ _ (fun _ => ⟨rfl, rfl⟩) fun _ => Or.inr hst)
  have hp : OkAt ok x.memBuf (s.writeBuf x.memBuf fun b => { b with status := st }) := by
    intro w hw
    change (s.bufs.modify x.memBuf _).get x.memBuf = some w at hw
    rw [Heap.get_modify_self] at hw
    obtain ⟨w', -, rfl⟩ := Option.map_eq_some_iff.mp hw
    exact hst
  have hat₁ : At a x (s.writeBuf x.memBuf fun b => { b with status := st }) :=
    ⟨hat.listed, hat.mapped⟩
  have hs₂ := hs₁.write (write_mps x.persistent (DeviceState.leave origin y.size) _)
  have hat₂ := hat₁.same (sameBlocks_mps x.persistent (DeviceState.leave origin y.size) _)
  refine (combineNext_in (h.writes hs₂) hst hne hat₂).bind fun s₃ hs₃ => ?_
  obtain ⟨hs₃, hat₃⟩ := hs₃
  have hp₃ := hs₃.okAt ((write_mps x.persistent (DeviceState.leave origin y.size) _).okAt hp)
  exact (combineMemBufForward_in (h.writes (hs₂.trans hs₃)) hst hne hat₃ hp₃).mono
    fun s' hforward => (hs₂.trans hs₃).trans hforward

/-- What the search for an address finds. -/
theorem at_of_findIn (h : s.findIn a b = some x) : At a x s := by
  obtain ⟨q, hq, h⟩ := Option.bind_eq_some_iff.mp h
  obtain ⟨blk, hblk, h⟩ := Option.bind_eq_some_iff.mp h
  obtain ⟨p, hp, h⟩ := Option.bind_eq_some_iff.mp h
  cases h
  exact ⟨(List.takeWhile_sublist _).mem (List.mem_of_getLast? hq), blk, hblk, hp⟩

theorem at_of_findByAddr (h : s.findByAddr a = some x) : At a x s := by
  rcases Option.or_eq_some_iff.mp h with h | ⟨-, h⟩
  · exact at_of_findIn h
  · exact at_of_findIn h

theorem combineMemBuf_in {origin : DynamicMemBufStatus} (h : Ready ok s) (hst : ok st)
    (hne : st ≠ .used) : InBounds (Writes ok s) (s.combineMemBuf a origin st) := by
  rw [combineMemBuf]
  cases hfind : s.findByAddr a with
  | none => exact .refl s
  | some x => exact combineAt_in h hst hne (at_of_findByAddr hfind)

/-! ## Part of what is freed is kept -/

/-- All vectors have an element for every stream, and all bufs pass the test. -/
structure Full (ok : DynamicMemBufStatus → Prop) (s : DynamicMemPoolBestFitOpt) : Prop where
  streams : Streams s
  vectors : ∀ st b, (s.mng b).memBlocks.length ≤ ((s.mng b).container st).length
  bufs : ∀ p, OkAt ok p s

theorem Full.ready (h : Full ok s) : Ready ok s := ⟨h.streams, fun st _ _ b => h.vectors st b⟩

theorem Full.writes (h : Full ok s) (hw : Writes ok s s') : Full ok s' := by
  refine ⟨hw.streams h.streams, fun st b => ?_, fun p => hw.okAt (h.bufs p)⟩
  rw [hw.memBlocks, hw.container]
  exact h.vectors st b

theorem freeTensorMem_in (h : Full ok s) (hidle : ok .idle) :
    InBounds (Writes ok s) (s.freeTensorMem a) :=
  combineMemBuf_in h.ready hidle (by decide)

/-- An idle buf that is new. -/
theorem addIdle_in {y : DynamicMemBuf} (h : Full ok s) (hidle : ok .idle)
    (hstatus : y.status = .idle) (hi : i < (s.mng b).memBlocks.length) :
    InBounds (Writes ok s) ((s.newMemBuf y).addMemBuf b .idle i size s.bufs.next) := by
  have hnew : Writes ok s (s.newMemBuf y) := .of_write (.new y (by rwa [hstatus]))
  have hfull := h.writes hnew
  refine (addMemBuf_in hfull.ready hidle (hfull.bufs _) ?_).mono fun s' hadd => hnew.trans hadd
  rw [hnew.memBlocks]
  exact hi

theorem keepLeft_in {left : Nat} (h : Full ok s) (hused : ok .used) (hidle : ok .idle)
    (hi : i < (s.mng x.persistent).memBlocks.length) :
    InBounds (Writes ok s) (s.keepLeft a size left x i) := by
  rw [keepLeft]
  split
  · exact .of_write (.buf _ _ (fun _ => ⟨rfl, rfl⟩) fun _ => Or.inr hused)
  · have hs₁ : Writes ok s (s.writeBuf x.memBuf fun b => { b with size := left }) :=
      .of_write (.buf _ _ (fun _ => ⟨rfl, rfl⟩) fun _ => Or.inl rfl)
    have hfull := h.writes hs₁
    refine (addMemBuf_in hfull.ready hidle (hfull.bufs _) hi).bind fun s₂ hs₂ => ?_
    exact (hs₁.trans hs₂).write (.new _ hused)

theorem keepRight_in {right : Nat} (h : Full ok s) (hidle : ok .idle)
    (hi : i < (s.mng x.persistent).memBlocks.length) :
    InBounds (Writes ok s) (s.keepRight a size right x i) := by
  rw [keepRight]
  split
  · exact addIdle_in h hidle rfl hi
  · exact .refl s

theorem listed_of_findKeep (h : s.findKeep a b = some x) :
    x.memBlock ∈ (s.mng x.persistent).memBlockList := by
  obtain ⟨q, hq, h⟩ := Option.bind_eq_some_iff.mp h
  obtain ⟨blk, hblk, h⟩ := Option.bind_eq_some_iff.mp h
  obtain ⟨iter, -, h⟩ := Option.bind_eq_some_iff.mp h
  obtain ⟨y, -, h⟩ := Option.bind_eq_some_iff.mp h
  split at h
  · cases h
    exact (List.takeWhile_sublist _).mem (List.mem_of_getLast? hq)
  · cases h

theorem keepTensorMemByAddr_in (h : Full ok s) (hused : ok .used) (hidle : ok .idle) :
    InBounds (Writes ok s) (s.keepTensorMemByAddr a size) := by
  rw [keepTensorMemByAddr]
  cases hfind : s.findByKeepAddr a with
  | none => exact fun h => by cases h
  | some x =>
      have hlisted : x.memBlock ∈ (s.mng x.persistent).memBlockList := by
        rcases Option.or_eq_some_iff.mp hfind with hfind | ⟨-, hfind⟩
        · exact listed_of_findKeep hfind
        · exact listed_of_findKeep hfind
      refine readBlock_in.bind fun blk hblk => readBuf_in.bind fun y _ => ?_
      obtain ⟨blk', hblk', hi⟩ := h.streams x.persistent x.memBlock hlisted
      rw [hblk] at hblk'
      cases hblk'
      have hvec := hi.trans_le (h.vectors y.status x.persistent)
      refine (eraseMemBufByStatus_in ok hvec).bind fun s₁ hs₁ => ?_
      obtain ⟨hs₁, -⟩ := hs₁
      have hi₁ : blk.streamId < (s₁.mng x.persistent).memBlocks.length := by
        rw [hs₁.memBlocks]
        exact hi
      refine (keepLeft_in (h.writes hs₁) hused hidle hi₁).bind fun s₂ hs₂ => ?_
      have hi₂ : blk.streamId < (s₂.mng x.persistent).memBlocks.length := by
        rw [hs₂.memBlocks]
        exact hi₁
      have hs := hs₁.trans hs₂
      refine (keepRight_in (h.writes hs) hidle hi₂).bind fun s₃ hs₃ => ?_
      exact (hs.trans hs₃).write (write_mps x.persistent _ _)

theorem freePartTensorMems_in {freeAddrs : List Nat} {keeps : List (Nat × Nat)}
    (h : Full ok s) (hused : ok .used) (hidle : ok .idle) :
    InBounds (Writes ok s) (s.freePartTensorMems freeAddrs keeps) := by
  have hfrees : InBounds (Writes ok s) (freeAddrs.foldlM (fun s a => s.freeTensorMem a) s) :=
    Ends.foldlM (fun s' hs' a _ => (freeTensorMem_in (h.writes hs') hidle).mono
      fun s'' hs'' => hs'.trans hs'') (.refl s)
  refine hfrees.bind fun s₁ hs₁ => ?_
  exact Ends.foldlM (fun s' hs' k _ => (keepTensorMemByAddr_in (h.writes hs') hused hidle).mono
    fun s'' hs'' => hs'.trans hs'') hs₁

/-! ## Continuous memory -/

theorem writes_continuousBuf {sizes : List Nat} (hused : ok .used) :
    ∀ {acc : (List Nat × Option Nat × Nat) × DynamicMemPoolBestFitOpt}, Writes ok s acc.2 →
      Writes ok s (sizes.foldl (continuousBuf q) acc).2 := by
  induction sizes with
  | nil =>
      intro acc h
      exact h
  | cons size sizes ih =>
      intro acc h
      rw [List.foldl_cons]
      exact ih (h.write (.new _ hused))

theorem replaceContinuous_in {sizeList : List Nat} {totalSize : Nat} (hused : ok .used) :
    InBounds (fun r => Writes ok s r.2) (s.replaceContinuous sizeList totalSize a) := by
  rw [replaceContinuous]
  generalize (s.findMemBlock a false).isNone = b
  dsimp only
  cases hfind : s.findMemBlock a b with
  | none => exact fun h => by cases h
  | some q =>
      refine readBlock_in.bind fun blk hblk => ?_
      cases hp : blk.blockAllMemBufMap.find? a with
      | none => exact fun h => by cases h
      | some p =>
          refine readBuf_in.bind fun y _ => ?_
          have hlisted : q ∈ (s.mng b).memBlockList :=
            (List.takeWhile_sublist _).mem (List.mem_of_getLast? hfind)
          have hdelete : Writes ok s (s.deleteMemBuf q a p) :=
            .of_write (.delete b q a p blk hlisted hblk hp)
          have hloop : Writes ok s (sizeList.foldl (continuousBuf q)
              (([], none, a), s.deleteMemBuf q a p)).2 := writes_continuousBuf hused hdelete
          generalize sizeList.foldl (continuousBuf q) (([], none, a), s.deleteMemBuf q a p) = r
            at hloop
          obtain ⟨⟨addrs, last, bufAddr⟩, s'⟩ := r
          cases last with
          | none => exact fun h => by cases h
          | some p => exact hloop.write (.buf p _ (fun _ => ⟨rfl, rfl⟩) fun _ => Or.inl rfl)

end DynamicMemPoolBestFitOpt

end Ccbase.DynamicMem.Opt
