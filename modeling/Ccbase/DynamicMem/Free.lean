import Ccbase.DynamicMem.Steps

/-!
# A buf comes back

`CombineMemBuf` joins a buf with the idle bufs next to it. `Freed` says what that
does at the place of the buf; that it does so rests on the index, which must have
the neighbours under the sizes they have now.
-/

namespace Ccbase.DynamicMem

open Ccbase.Lib

/-! ## The neighbours -/

def sizeOpt : Option DynamicMemBuf → Nat
  | none => 0
  | some b => b.size

/-- A buf with the ones it is joined with. -/
def joined (prev : Option DynamicMemBuf) (x : DynamicMemBuf) (next : Option DynamicMemBuf) :
    DynamicMemBuf where
  deviceAddr := (prev.map DynamicMemBuf.deviceAddr).getD x.deviceAddr
  status := .idle
  size := sizeOpt prev + (x.size + sizeOpt next)

/-- The index without a neighbour, if there is one. -/
def removeOpt (b : Option DynamicMemBuf) (index : SizeMapMemBuf) : SizeMapMemBuf :=
  match b with
  | none => index
  | some b => index.eraseFirst fun e => decide (e = b.entry)

theorem perm_removeOpt {b : Option DynamicMemBuf} {index : SizeMapMemBuf}
    {xs ys : List (Nat × Nat)}
    (h : index.entries.Perm (xs ++ (b.map DynamicMemBuf.entry).toList ++ ys)) :
    (removeOpt b index).entries.Perm (xs ++ ys) := by
  cases b with
  | none => simpa [removeOpt] using h
  | some b =>
      refine MultiMap.perm_eraseFirst_middle (e := b.entry) ?_ fun d => by simp
      simpa using h

theorem entriesOf_toList {b : Option DynamicMemBuf} (h : ∀ y ∈ b, y.status = .idle) :
    entriesOf b.toList = (b.map DynamicMemBuf.entry).toList := by
  cases b with
  | none => rfl
  | some b => exact entriesOf_cons_idle (h b rfl) []

/-- From `m` to `m'`, the buf `x` has come back and is one with `prev` and `next`,
which are the idle bufs next to it. -/
structure Freed (m m' : MemStatusManager) (L : List (DynamicMemBlock DynamicMemBuf))
    (blk : DynamicMemBlock DynamicMemBuf) (R : List (DynamicMemBlock DynamicMemBuf))
    (l : List DynamicMemBuf) (prev : Option DynamicMemBuf) (x : DynamicMemBuf)
    (next : Option DynamicMemBuf) (r : List DynamicMemBuf) : Prop where
  place : At m.memBlockList L blk R (l ++ prev.toList) x (next.toList ++ r)
  used : x.status = .used
  prevIdle : ∀ w ∈ prev, w.status = .idle
  nextIdle : ∀ y ∈ next, y.status = .idle
  prevBusy : prev = none → ∀ w ∈ l.getLast?, w.status ≠ .idle
  nextBusy : next = none → ∀ y ∈ r.head?, y.status ≠ .idle
  blocks : m'.memBlockList = L ++ blk.setBufs (l ++ joined prev x next :: r) :: R
  mps : m'.mps = (m.mps.subUsed x.size).addIdle (joined prev x next).size
  unitSize : m'.unitSize = m.unitSize
  index : ∀ s, sizeMapOf m'.idleMemBufs s =
    if s = blk.streamId then
      (removeOpt prev (removeOpt next (sizeMapOf m.idleMemBufs blk.streamId))).emplace
        (joined prev x next).size (joined prev x next).deviceAddr
    else sizeMapOf m.idleMemBufs s

/-! ## `CombineMemBuf` -/

section Combine

variable {s : Nat} {x : DynamicMemBuf} {c : OrdMap Nat SizeMapMemBuf} {l r : List DynamicMemBuf}

theorem combineNext_spec
    (hmem : ∀ y ∈ r.head?, y.status = .idle → y.entry ∈ (sizeMapOf c s).entries)
    (hsize : ∀ y ∈ r.head?, x.size + y.size < sizeBound) :
    ∃ (next : Option DynamicMemBuf) (r' : List DynamicMemBuf) (c' : OrdMap Nat SizeMapMemBuf),
      r = next.toList ++ r' ∧
      MemStatusManager.combineNext s x r c =
        some ({ x with size := x.size + sizeOpt next }, r', c') ∧
      (∀ y ∈ next, y.status = .idle) ∧ (next = none → ∀ y ∈ r'.head?, y.status ≠ .idle) ∧
      ∀ s', sizeMapOf c' s' =
        if s' = s then removeOpt next (sizeMapOf c s) else sizeMapOf c s' := by
  have hnone : ∀ s', sizeMapOf c s' =
      if s' = s then removeOpt none (sizeMapOf c s) else sizeMapOf c s' := by
    intro s'
    split
    · rename_i hs
      rw [hs]
      rfl
    · rfl
  cases r with
  | nil => exact ⟨none, [], c, rfl, rfl, by simp, by simp, hnone⟩
  | cons y r =>
      by_cases hy : y.status = .idle
      · obtain ⟨c', hc', hindex⟩ := removeDeviceMem_of_mem (hmem y rfl hy)
        refine ⟨some y, r, c', rfl, ?_, by simpa using hy, by simp, hindex⟩
        rw [MemStatusManager.combineNext, if_pos hy, hc', Option.map_some,
          addSize_eq (hsize y rfl)]
        rfl
      · refine ⟨none, y :: r, c, rfl, ?_, by simp, fun _ w hw => ?_, hnone⟩
        · rw [MemStatusManager.combineNext, if_neg hy]
          rfl
        · cases hw
          exact hy

theorem combinePrev_spec
    (hmem : ∀ w ∈ l.getLast?, w.status = .idle → w.entry ∈ (sizeMapOf c s).entries)
    (hsize : ∀ w ∈ l.getLast?, w.size + x.size < sizeBound) :
    ∃ (l' : List DynamicMemBuf) (prev : Option DynamicMemBuf) (x' : DynamicMemBuf)
      (c' : OrdMap Nat SizeMapMemBuf),
      l = l' ++ prev.toList ∧ MemStatusManager.combinePrev s l x c = some (l', x', c') ∧
      x'.deviceAddr = (prev.map DynamicMemBuf.deviceAddr).getD x.deviceAddr ∧
      x'.status = (prev.map DynamicMemBuf.status).getD x.status ∧
      x'.size = sizeOpt prev + x.size ∧
      (∀ w ∈ prev, w.status = .idle) ∧ (prev = none → ∀ w ∈ l'.getLast?, w.status ≠ .idle) ∧
      ∀ s', sizeMapOf c' s' =
        if s' = s then removeOpt prev (sizeMapOf c s) else sizeMapOf c s' := by
  have hnone : ∀ s', sizeMapOf c s' =
      if s' = s then removeOpt none (sizeMapOf c s) else sizeMapOf c s' := by
    intro s'
    split
    · rename_i hs
      rw [hs]
      rfl
    · rfl
  cases hlast : l.getLast? with
  | none =>
      refine ⟨l, none, x, c, by simp, ?_, rfl, rfl, by simp [sizeOpt], by simp,
        fun _ w hw => ?_, hnone⟩
      · rw [MemStatusManager.combinePrev, hlast]
      · rw [hlast] at hw
        cases hw
  | some w =>
      by_cases hw : w.status = .idle
      · obtain ⟨c', hc', hindex⟩ := removeDeviceMem_of_mem (hmem w hlast hw)
        refine ⟨l.dropLast, some w, { w with size := w.size + x.size }, c',
          (List.dropLast_append_getLast? w hlast).symm, ?_, rfl, rfl, rfl, by simpa using hw,
          by simp, hindex⟩
        simp only [MemStatusManager.combinePrev, hlast, if_pos hw, hc', Option.map_some,
          addSize_eq (hsize w hlast)]
      · refine ⟨l, none, x, c, by simp, ?_, rfl, rfl, by simp [sizeOpt], by simp,
          fun _ w' hw' => ?_, hnone⟩
        · simp only [MemStatusManager.combinePrev, hlast, if_neg hw]
        · rw [hlast] at hw'
          cases hw'
          exact hw

end Combine

section Free

variable {m m' : MemStatusManager} {L R : List (DynamicMemBlock DynamicMemBuf)}
  {blk : DynamicMemBlock DynamicMemBuf} {l r : List DynamicMemBuf} {x : DynamicMemBuf}
  {prev next : Option DynamicMemBuf}

/-- The sizes of a buf and of its neighbours add up to less than `2 ^ 64`. -/
theorem MngInv.size_lt (hinv : MngInv m) (prev next : Option DynamicMemBuf)
    (hat : At m.memBlockList L blk R (l ++ prev.toList) x (next.toList ++ r)) :
    sizeOpt prev + (x.size + sizeOpt next) < sizeBound := by
  have hsum := (hinv.placed.tiles_at hat).sum_size
  have hspace := hinv.inSpace blk (Placed.mem_at hat)
  simp only [List.map_append, List.map_cons, List.sum_append, List.sum_cons] at hsum
  have hopt : ∀ b : Option DynamicMemBuf, (b.toList.map DynamicMemBuf.size).sum = sizeOpt b := by
    intro b
    cases b with
    | none => rfl
    | some b => simp [sizeOpt]
  rw [hopt, hopt] at hsum
  omega

/-- The index of the stream of a place, around the buf. -/
theorem MngInv.indexed_used (hinv : MngInv m)
    (hat : At m.memBlockList L blk R (l ++ prev.toList) x (next.toList ++ r))
    (hused : x.status = .used) (hprev : ∀ w ∈ prev, w.status = .idle)
    (hnext : ∀ y ∈ next, y.status = .idle) :
    (sizeMapOf m.idleMemBufs blk.streamId).entries.Perm
      ((idleEntries blk.streamId L ++ entriesOf l) ++ (prev.map DynamicMemBuf.entry).toList ++
        ((next.map DynamicMemBuf.entry).toList ++
          (entriesOf r ++ idleEntries blk.streamId R))) := by
  have hindex := hinv.indexed_at hat
  rw [entriesOf_append, entriesOf_append, entriesOf_cons_busy (by rw [hused]; simp),
    entriesOf_append, entriesOf_toList hprev, entriesOf_toList hnext] at hindex
  simpa using hindex

/-- An idle buf of a block is in the index of the stream. -/
theorem MngInv.entry_mem (hinv : MngInv m) (hblk : blk ∈ m.memBlockList) {y : DynamicMemBuf}
    (hy : y ∈ blk.blockAllMemBufMap) (hidle : y.status = .idle) :
    y.entry ∈ (sizeMapOf m.idleMemBufs blk.streamId).entries := by
  obtain ⟨L, R, l, r, hat⟩ := exists_at hblk hy
  refine (hinv.indexed_at hat).mem_iff.mpr ?_
  rw [entriesOf_append, entriesOf_cons_idle hidle]
  simp

theorem combineMemBuf_spec (hinv : MngInv m) (hat : At m.memBlockList L blk R l x r)
    (hused : x.status = .used) :
    ∃ m' l' prev next r', m.combineMemBuf blk (l, x, r) = some m' ∧
      Freed m m' L blk R l' prev x next r' := by
  have hblk := Placed.mem_at hat
  have hnextMem : ∀ y ∈ r.head?, y.status = .idle →
      y.entry ∈ (sizeMapOf m.idleMemBufs blk.streamId).entries := by
    intro y hy hidle
    refine hinv.entry_mem hblk ?_ hidle
    rw [hat.bufs]
    simp [List.mem_of_mem_head? hy]
  have hnextSize : ∀ y ∈ r.head?,
      ({ x with status := .idle } : DynamicMemBuf).size + y.size < sizeBound := by
    intro y hy
    obtain ⟨r', rfl⟩ := List.head?_eq_some_iff.mp hy
    have hlt := hinv.size_lt none (some y) (l := l) (r := r') (by simpa using hat)
    simp only [sizeOpt] at hlt ⊢
    omega
  -- the buf behind goes first: it is taken in if it is idle
  obtain ⟨next, r', c₁, rfl, hcn, hnextIdle, hnextBusy, hc₁⟩ :=
    combineNext_spec hnextMem hnextSize
  have hlast : ∀ w ∈ l.getLast?, ∃ l', At m.memBlockList L blk R (l' ++ (some w).toList) x
      (next.toList ++ r') := by
    intro w hw
    refine ⟨l.dropLast, ?_⟩
    rw [Option.toList_some, List.dropLast_append_getLast? w hw]
    exact hat
  -- its entry has left the index, that of the buf in front is still there
  have hprevMem : ∀ w ∈ l.getLast?, w.status = .idle →
      w.entry ∈ (sizeMapOf c₁ blk.streamId).entries := by
    intro w hw hidle
    obtain ⟨l', hat'⟩ := hlast w hw
    have hindex := hinv.indexed_used hat' hused (by simpa using hidle) hnextIdle
    rw [← List.append_assoc] at hindex
    rw [hc₁, if_pos rfl, (perm_removeOpt hindex).mem_iff]
    simp
  have hprevSize : ∀ w ∈ l.getLast?, w.size +
      ({ x with status := .idle, size := x.size + sizeOpt next } : DynamicMemBuf).size <
        sizeBound := by
    intro w hw
    obtain ⟨l', hat'⟩ := hlast w hw
    exact hinv.size_lt (some w) next hat'
  obtain ⟨l', prev, x', c₂, rfl, hcp, haddr, hstatus, hsize, hprevIdle, hprevBusy, hc₂⟩ :=
    combinePrev_spec hprevMem hprevSize
  -- what has become of the freed buf
  have hx' : x' = joined prev x next := by
    have hidle : x'.status = .idle := by
      rw [hstatus]
      cases prev with
      | none => rfl
      | some w => exact hprevIdle w rfl
    cases x'
    simp only [joined, DynamicMemBuf.mk.injEq]
    exact ⟨haddr, hidle, hsize⟩
  subst hx'
  refine ⟨{ m with
      memBlockList := L ++ blk.setBufs (l' ++ joined prev x next :: r') :: R
      idleMemBufs := addMemBuf c₂ (joined prev x next) blk.streamId
      mps := (m.mps.subUsed x.size).addIdle (joined prev x next).size },
    l', prev, next, r', ?_, hat, hused, hprevIdle, hnextIdle, hprevBusy, hnextBusy, rfl, rfl, rfl,
    ?_⟩
  · have hwrite := writeBlock_middle
      (fun b => b.setBufs (l' ++ joined prev x next :: r')) (rfl : blk.deviceAddrBase = _)
      (hinv.placed.base_ne hat).1 (hinv.placed.base_ne hat).2
    rw [← hat.blocks] at hwrite
    simp only [MemStatusManager.combineMemBuf, hcn, hcp, hwrite, Option.bind_eq_bind,
      Option.bind_some]
  · intro s
    show sizeMapOf (addMemBuf c₂ (joined prev x next) blk.streamId) s = _
    rw [sizeMapOf_addMemBuf, hc₂, if_pos rfl, hc₁, if_pos rfl]
    split
    · rfl
    · rename_i hs
      rw [hc₂, if_neg hs, hc₁, if_neg hs]

/-- A buf that is joined with all its idle neighbours has none any more. -/
theorem isChain_joined (hchain : (l ++ prev.toList ++ x :: (next.toList ++ r)).IsChain NotBothIdle)
    (hprev : ∀ w ∈ prev, w.status = .idle) (hnext : ∀ y ∈ next, y.status = .idle)
    (hprevBusy : prev = none → ∀ w ∈ l.getLast?, w.status ≠ .idle)
    (hnextBusy : next = none → ∀ y ∈ r.head?, y.status ≠ .idle) :
    (l ++ joined prev x next :: r).IsChain NotBothIdle := by
  obtain ⟨hl, hr, -, -⟩ := isChain_middle hchain
  obtain ⟨hl, -, hlink⟩ := List.isChain_append.mp hl
  obtain ⟨-, hr, hlink'⟩ := List.isChain_append.mp hr
  refine isChain_of_middle hl hr (fun w hw => ?_) fun y hy => ?_
  · refine notBothIdle_left ?_ _
    cases prev with
    | none => exact hprevBusy rfl w hw
    | some b => exact fun hidle => hlink w hw b rfl ⟨hidle, hprev b rfl⟩
  · refine notBothIdle_right _ ?_
    cases next with
    | none => exact hnextBusy rfl y hy
    | some b => exact fun hidle => hlink' b rfl y hy ⟨hnext b rfl, hidle⟩

theorem tiles_joined {a z : Nat} (h : Tiles DynamicMemBuf.deviceAddr DynamicMemBuf.size a
      (l ++ prev.toList ++ x :: (next.toList ++ r)) z) :
    Tiles DynamicMemBuf.deviceAddr DynamicMemBuf.size a (l ++ joined prev x next :: r) z := by
  obtain ⟨hl, hx, hr⟩ := h.middle
  obtain ⟨p, hl, hprev⟩ := Tiles.append_iff.mp hl
  obtain ⟨q, hnext, hr⟩ := Tiles.append_iff.mp hr
  have hp : (joined prev x next).deviceAddr = p ∧ p + sizeOpt prev = x.deviceAddr := by
    cases prev with
    | none => exact ⟨hprev.symm, hprev⟩
    | some b => exact ⟨hprev.1, hprev.2.2⟩
  have hq : x.deviceAddr + x.size + sizeOpt next = q := by
    cases next with
    | none => exact hnext
    | some b => exact hnext.2.2
  refine Tiles.append_iff.mpr ⟨p, hl, hp.1, ?_, ?_⟩
  · simp only [joined]
    omega
  · rw [show p + (joined prev x next).size = q by simp only [joined]; omega]
    exact hr

theorem Freed.inv (hinv : MngInv m) (h : Freed m m' L blk R l prev x next r) : MngInv m' := by
  refine MngInv.replace h.blocks ?_ ?_ (hinv.others h.place.blocks) ?_ ?_ ?_ ?_
  · rw [h.blocks]
    exact hinv.placed.setBufs h.place (tiles_joined (hinv.placed.tiles_at h.place))
  · rw [h.blocks]
    exact hinv.inSpace.setBufs h.place.blocks _
  · exact isChain_joined (hinv.chain_at h.place) h.prevIdle h.nextIdle h.prevBusy h.nextBusy
  · intro y hy
    rcases List.mem_append.mp hy with hy | hy
    · exact hinv.noEager_at h.place y (by simp [hy])
    · rcases List.mem_cons.mp hy with rfl | hy
      · simp [joined]
      · exact hinv.noEager_at h.place y (by simp [hy])
  · rw [h.index, if_pos rfl]
    have hindex := hinv.indexed_used h.place h.used h.prevIdle h.nextIdle
    rw [← List.append_assoc] at hindex
    have hperm := MultiMap.perm_emplace_middle (joined prev x next).size
      (joined prev x next).deviceAddr (perm_removeOpt (perm_removeOpt hindex))
    rw [entriesOf_append, entriesOf_cons_idle (show (joined prev x next).status = .idle from rfl),
      DynamicMemBuf.entry]
    simpa using hperm
  · intro s hs
    rw [h.index, if_neg (Ne.symm hs)]
    exact hinv.indexed_other h.place.blocks hs

end Free

end Ccbase.DynamicMem
