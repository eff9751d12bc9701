import Ccbase.DynamicMem.Inv

/-!
# The invariant over the steps of a pool

A buf goes into use (`Taken`), a block is added (`Created`), a buf comes back and
is joined with its idle neighbours (`Freed`). Each step is described in full and
keeps the invariant.
-/

namespace Ccbase.DynamicMem

open Ccbase.Lib

/-! ## Neighbours -/

theorem notBothIdle_left {x : DynamicMemBuf} (h : x.status ≠ .idle) (y : DynamicMemBuf) :
    NotBothIdle x y := fun hxy => h hxy.1

theorem notBothIdle_right {y : DynamicMemBuf} (x : DynamicMemBuf) (h : y.status ≠ .idle) :
    NotBothIdle x y := fun hxy => h hxy.2

/-- The neighbours of a place. -/
theorem isChain_middle {l r : List DynamicMemBuf} {x : DynamicMemBuf}
    (h : (l ++ x :: r).IsChain NotBothIdle) :
    l.IsChain NotBothIdle ∧ r.IsChain NotBothIdle ∧
      (∀ w ∈ l.getLast?, NotBothIdle w x) ∧ ∀ y ∈ r.head?, NotBothIdle x y := by
  obtain ⟨hl, hxr, hlink⟩ := List.isChain_append.mp h
  have hxr' : ([x] ++ r).IsChain NotBothIdle := hxr
  obtain ⟨-, hr, hlink'⟩ := List.isChain_append.mp hxr'
  refine ⟨hl, hr, fun w hw => hlink w hw x rfl, fun y hy => hlink' x rfl y hy⟩

theorem isChain_of_middle {l r : List DynamicMemBuf} {x : DynamicMemBuf}
    (hl : l.IsChain NotBothIdle) (hr : r.IsChain NotBothIdle)
    (hlx : ∀ w ∈ l.getLast?, NotBothIdle w x) (hxr : ∀ y ∈ r.head?, NotBothIdle x y) :
    (l ++ x :: r).IsChain NotBothIdle := by
  have hcons : ([x] ++ r).IsChain NotBothIdle := by
    refine List.isChain_append.mpr ⟨List.isChain_singleton x, hr, ?_⟩
    intro w hw y hy
    cases hw
    exact hxr y hy
  refine List.isChain_append.mpr ⟨hl, hcons, ?_⟩
  · intro w hw y hy
    cases hy
    exact hlx w hw

theorem InSpace.setBufs {β : Type} {blocks L R : List (DynamicMemBlock β)}
    {blk : DynamicMemBlock β} (h : InSpace blocks) (hblocks : blocks = L ++ blk :: R)
    (bufs : List β) : InSpace (L ++ blk.setBufs bufs :: R) := by
  intro b hb
  rcases List.mem_append.mp hb with hb | hb
  · exact h b (by rw [hblocks]; simp [hb])
  · rcases List.mem_cons.mp hb with rfl | hb
    · exact h blk (by rw [hblocks]; simp)
    · exact h b (by rw [hblocks]; simp [hb])

/-- The invariant after the bufs of one block and the index of its stream have
changed. -/
theorem MngInv.replace {m' : MemStatusManager} {L R : List (DynamicMemBlock DynamicMemBuf)}
    {blk : DynamicMemBlock DynamicMemBuf} {bufs : List DynamicMemBuf}
    (hblocks : m'.memBlockList = L ++ blk.setBufs bufs :: R)
    (hplaced : Placed DynamicMemBuf.deviceAddr DynamicMemBuf.size m'.memBlockList)
    (hspace : InSpace m'.memBlockList)
    (hothers : ∀ b ∈ L ++ R, b.blockAllMemBufMap.IsChain NotBothIdle ∧
      ∀ x ∈ b.blockAllMemBufMap, x.status ≠ .eagerFree)
    (hchain : bufs.IsChain NotBothIdle) (hbufs : ∀ x ∈ bufs, x.status ≠ .eagerFree)
    (hsame : (sizeMapOf m'.idleMemBufs blk.streamId).entries.Perm
      (idleEntries blk.streamId L ++ entriesOf bufs ++ idleEntries blk.streamId R))
    (hother : ∀ s, blk.streamId ≠ s → (sizeMapOf m'.idleMemBufs s).entries.Perm
      (idleEntries s L ++ idleEntries s R)) : MngInv m' where
  placed := hplaced
  inSpace := hspace
  noEager := by
    intro x hx
    rw [hblocks] at hx
    obtain ⟨b, hb, hx⟩ := mem_allBufs.mp hx
    rcases List.mem_append.mp hb with hb | hb
    · exact (hothers b (List.mem_append_left _ hb)).2 x hx
    · rcases List.mem_cons.mp hb with rfl | hb
      · exact hbufs x hx
      · exact (hothers b (List.mem_append_right _ hb)).2 x hx
  coalesced := by
    intro b hb
    rw [hblocks] at hb
    rcases List.mem_append.mp hb with hb | hb
    · exact (hothers b (List.mem_append_left _ hb)).1
    · rcases List.mem_cons.mp hb with rfl | hb
      · exact hchain
      · exact (hothers b (List.mem_append_right _ hb)).1
  indexed := by
    intro s
    rw [hblocks]
    by_cases hs : blk.streamId = s
    · rw [idleEntries_at hs, ← hs]
      exact hsame
    · rw [idleEntries_at_other hs]
      exact hother s hs

namespace MngInv

variable {m m' : MemStatusManager} {L R : List (DynamicMemBlock DynamicMemBuf)}
  {blk : DynamicMemBlock DynamicMemBuf} {l r : List DynamicMemBuf} {x : DynamicMemBuf}

/-- The other blocks, and the index around a place. -/
theorem others (h : MngInv m) (hblocks : m.memBlockList = L ++ blk :: R) :
    ∀ b ∈ L ++ R, b.blockAllMemBufMap.IsChain NotBothIdle ∧
      ∀ x ∈ b.blockAllMemBufMap, x.status ≠ .eagerFree := by
  intro b hb
  have hmem : b ∈ m.memBlockList := by
    rw [hblocks]
    rcases List.mem_append.mp hb with hb | hb
    · simp [hb]
    · simp [hb]
  exact ⟨h.coalesced b hmem, fun x hx => h.noEager x (mem_allBufs.mpr ⟨b, hmem, hx⟩)⟩

theorem indexed_at (h : MngInv m) (hat : At m.memBlockList L blk R l x r) :
    (sizeMapOf m.idleMemBufs blk.streamId).entries.Perm
      (idleEntries blk.streamId L ++ entriesOf (l ++ x :: r) ++ idleEntries blk.streamId R) := by
  have hindex := h.indexed blk.streamId
  rw [hat.blocks, idleEntries_append, idleEntries_cons_same rfl, hat.bufs,
    ← List.append_assoc] at hindex
  exact hindex

theorem indexed_other (h : MngInv m) (hblocks : m.memBlockList = L ++ blk :: R) {s : Nat}
    (hs : blk.streamId ≠ s) : (sizeMapOf m.idleMemBufs s).entries.Perm
      (idleEntries s L ++ idleEntries s R) := by
  have hindex := h.indexed s
  rw [hblocks, idleEntries_append, idleEntries_cons_other hs] at hindex
  exact hindex

theorem chain_at (h : MngInv m) (hat : At m.memBlockList L blk R l x r) :
    (l ++ x :: r).IsChain NotBothIdle := by
  rw [← hat.bufs]
  exact h.coalesced blk (Placed.mem_at hat)

theorem noEager_at (h : MngInv m) (hat : At m.memBlockList L blk R l x r) :
    ∀ y ∈ l ++ x :: r, y.status ≠ .eagerFree := by
  intro y hy
  rw [← hat.bufs] at hy
  exact h.noEager y (mem_allBufs.mpr ⟨blk, Placed.mem_at hat, hy⟩)

theorem same (h : MngInv m) (hsame : SameMng m m') : MngInv m' where
  placed := by rw [hsame.blocks]; exact h.placed
  inSpace := by rw [hsame.blocks]; exact h.inSpace
  noEager := by rw [hsame.blocks]; exact h.noEager
  coalesced := by rw [hsame.blocks]; exact h.coalesced
  indexed := by
    intro s
    rw [hsame.blocks, hsame.index]
    exact h.indexed s

end MngInv

/-! ## A buf goes into use -/

theorem entriesOf_takeBufs {split : Nat → Nat → Bool} {size : Nat} {x : DynamicMemBuf} :
    entriesOf (takeBufs split size x) =
      if split size x.size then [(restOf size x).entry] else [] := by
  rw [takeBufs]
  split
  · rw [entriesOf_cons_busy (by simp), entriesOf_cons_idle rfl]
    rfl
  · rw [entriesOf_cons_busy (by simp)]
    rfl

/-- The index with the rest has the entries with the rest. -/
theorem perm_addRest (split : Nat → Nat → Bool) (size : Nat) (x : DynamicMemBuf)
    {index : SizeMapMemBuf} {es es' : List (Nat × Nat)} (h : index.entries.Perm (es ++ es')) :
    (addRest split size x index).entries.Perm
      (es ++ entriesOf (takeBufs split size x) ++ es') := by
  rw [addRest, entriesOf_takeBufs]
  split
  · rw [List.append_assoc]
    exact MultiMap.perm_emplace_middle _ _ h
  · rw [List.append_nil]
    exact h

/-- A buf that is taken from an idle one has no idle neighbour but its rest, and
the rest has none. -/
theorem isChain_takeBufs {split : Nat → Nat → Bool} {size : Nat} {x : DynamicMemBuf}
    {l r : List DynamicMemBuf} (hl : l.IsChain NotBothIdle) (hr : r.IsChain NotBothIdle)
    (hbusy : ∀ y ∈ r.head?, y.status ≠ .idle) :
    (l ++ takeBufs split size x ++ r).IsChain NotBothIdle := by
  rw [takeBufs, List.append_assoc]
  split
  · have hrest : ([] ++ restOf size x :: r).IsChain NotBothIdle :=
      isChain_of_middle List.isChain_nil hr (by simp) fun y hy => notBothIdle_right _ (hbusy y hy)
    exact isChain_of_middle hl hrest (fun w _ => notBothIdle_right w (by simp))
      fun y _ => notBothIdle_left (by simp) y
  · exact isChain_of_middle hl hr (fun w _ => notBothIdle_right w (by simp))
      fun y _ => notBothIdle_left (by simp) y

theorem noEager_takeBufs {split : Nat → Nat → Bool} {size : Nat} {x : DynamicMemBuf} :
    ∀ y ∈ takeBufs split size x, y.status ≠ .eagerFree := by
  intro y hy
  rw [takeBufs] at hy
  split at hy
  · simp only [List.mem_cons, List.not_mem_nil, or_false] at hy
    rcases hy with rfl | rfl <;> simp [restOf]
  · simp only [List.mem_cons, List.not_mem_nil, or_false] at hy
    subst hy
    simp

theorem Taken.inv {split : Nat → Nat → Bool} {size : Nat} {m m' : MemStatusManager}
    {L R : List (DynamicMemBlock DynamicMemBuf)} {blk : DynamicMemBlock DynamicMemBuf}
    {l r : List DynamicMemBuf} {x : DynamicMemBuf} (hsplits : Splits split) (hinv : MngInv m)
    (hask : Asked size) (h : Taken split size m m' L blk R l x r) : MngInv m' := by
  have htiles := tiles_takeBufs hsplits hinv.placed hinv.inSpace h.place hask h.fits
  obtain ⟨hl, hr, hlx, hxr⟩ := isChain_middle (hinv.chain_at h.place)
  have hindex := hinv.indexed_at h.place
  rw [entriesOf_append, entriesOf_cons_idle h.idle,
    show idleEntries blk.streamId L ++ (entriesOf l ++ x.entry :: entriesOf r) ++
      idleEntries blk.streamId R = (idleEntries blk.streamId L ++ entriesOf l) ++
        x.entry :: (entriesOf r ++ idleEntries blk.streamId R) by simp] at hindex
  refine MngInv.replace h.blocks ?_ ?_ (hinv.others h.place.blocks) ?_ ?_ ?_ ?_
  · rw [h.blocks]
    exact hinv.placed.setBufs h.place htiles
  · rw [h.blocks]
    exact hinv.inSpace.setBufs h.place.blocks _
  · exact isChain_takeBufs hl hr fun y hy hidle => hxr y hy ⟨h.idle, hidle⟩
  · intro y hy
    rcases List.mem_append.mp hy with hy | hy
    · rcases List.mem_append.mp hy with hy | hy
      · exact hinv.noEager_at h.place y (by simp [hy])
      · exact noEager_takeBufs y hy
    · exact hinv.noEager_at h.place y (by simp [hy])
  · rw [h.index, if_pos rfl]
    have hperm := perm_addRest split size x
      (MultiMap.perm_eraseLowerBound_middle hindex h.first)
    simpa [entriesOf_append] using hperm
  · intro s hs
    rw [h.index, if_neg (Ne.symm hs)]
    exact hinv.indexed_other h.place.blocks hs

/-! ## A block is added -/

/-- The buf that fills a new block. -/
def wholeBuf (addr size : Nat) : DynamicMemBuf where
  deviceAddr := addr
  status := .idle
  size := size

/-- A new block, with one idle buf. -/
def wholeBlock (addr size streamId : Nat) : DynamicMemBlock DynamicMemBuf where
  deviceAddrBase := addr
  memBlockSize := size
  streamId := streamId
  blockAllMemBufMap := [wholeBuf addr size]

/-- From `m` to `m'`, a block has come between `L` and `R`, and `size` bytes of it
are in use. -/
structure Created (split : Nat → Nat → Bool) (size addr len streamId : Nat)
    (m m' : MemStatusManager) (L R : List (DynamicMemBlock DynamicMemBuf)) : Prop where
  place : insertMemBlock (wholeBlock addr len streamId) m.memBlockList =
    L ++ wholeBlock addr len streamId :: R
  blocks : m'.memBlockList =
    L ++ (wholeBlock addr len streamId).setBufs (takeBufs split size (wholeBuf addr len)) :: R
  mps : m'.mps = (m.mps.addTotal len).addUsed (takeSize split size (wholeBuf addr len))
  unitSize : m'.unitSize = m.unitSize
  index : ∀ s, sizeMapOf m'.idleMemBufs s =
    if s = streamId then
      addRest split size (wholeBuf addr len) (sizeMapOf m.idleMemBufs streamId)
    else sizeMapOf m.idleMemBufs s

section Create

variable {split : Nat → Nat → Bool} {size addr len streamId : Nat} {m m' : MemStatusManager}
  {L R : List (DynamicMemBlock DynamicMemBuf)}

/-- A range that the device may hand out: in the address space and apart from the
blocks there are. -/
structure Fresh (addr len : Nat) (blocks : List (DynamicMemBlock DynamicMemBuf)) : Prop where
  pos : 0 < addr
  le : addr + len ≤ sizeBound
  apart : ∀ b ∈ blocks, addr + len ≤ b.deviceAddrBase ∨
    b.deviceAddrBase + b.memBlockSize ≤ addr

instance decidableFresh (addr len : Nat) (blocks : List (DynamicMemBlock DynamicMemBuf)) :
    Decidable (Fresh addr len blocks) :=
  decidable_of_iff (0 < addr ∧ addr + len ≤ sizeBound ∧ ∀ b ∈ blocks,
      addr + len ≤ b.deviceAddrBase ∨ b.deviceAddrBase + b.memBlockSize ≤ addr)
    ⟨fun h => ⟨h.1, h.2.1, h.2.2⟩, fun h => ⟨h.pos, h.le, h.apart⟩⟩

theorem placed_insert (streamId : Nat) (hinv : MngInv m) (hfresh : Fresh addr len m.memBlockList)
    (hlen : 0 < len) : Placed DynamicMemBuf.deviceAddr DynamicMemBuf.size
      (insertMemBlock (wholeBlock addr len streamId) m.memBlockList) :=
  hinv.placed.insert hlen ⟨rfl, hlen, rfl⟩ hfresh.apart

theorem inSpace_insert (streamId : Nat) (hinv : MngInv m) (hfresh : Fresh addr len m.memBlockList) :
    InSpace (insertMemBlock (wholeBlock addr len streamId) m.memBlockList) := by
  intro b hb
  rcases List.mem_cons.mp ((perm_insertMemBlock _ _).mem_iff.mp hb) with rfl | hb
  · exact ⟨hfresh.pos, hfresh.le⟩
  · exact hinv.inSpace b hb

theorem createMemBlockAndMemBuf_spec (hsplits : Splits split) (hinv : MngInv m)
    (hfresh : Fresh addr len m.memBlockList) (hask : Asked size) (hfits : size ≤ len)
    (streamId : Nat) :
    ∃ m' L R, m.createMemBlockAndMemBuf split size addr len streamId = some (addr, m') ∧
      Created split size addr len streamId m m' L R := by
  have hmem : wholeBlock addr len streamId ∈
      insertMemBlock (wholeBlock addr len streamId) m.memBlockList :=
    (perm_insertMemBlock _ _).mem_iff.mpr (List.mem_cons_self ..)
  obtain ⟨L, R, hplace⟩ := List.append_of_mem hmem
  have hat : At (insertMemBlock (wholeBlock addr len streamId) m.memBlockList) L
      (wholeBlock addr len streamId) R [] (wholeBuf addr len) [] := ⟨hplace, rfl⟩
  obtain ⟨m₁, m₂, hm₁, hm₂, hread, hblocks, hmps, hunit, hindex⟩ :=
    splitUse_spec (m := { m with
      memBlockList := insertMemBlock (wholeBlock addr len streamId) m.memBlockList })
      hsplits (placed_insert streamId hinv hfresh (hask.1.trans_le hfits))
      (inSpace_insert streamId hinv hfresh) hat rfl hask hfits
  rw [List.nil_append, List.append_nil] at hblocks
  refine ⟨{ m₂ with
      mps := (m₂.mps.addTotal len).addUsed (takeSize split size (wholeBuf addr len)) }, L, R, ?_,
    hplace, hblocks, by rw [hmps], hunit, hindex⟩
  have hm₁' : MemStatusManager.divideMemBuf split size len addr { m with
      memBlockList := insertMemBlock (wholeBlock addr len streamId) m.memBlockList } =
        some m₁ := hm₁
  have hm₂' : m₁.writeBuf addr (fun b => { b with status := .used }) = m₂ := hm₂
  have hread' : m₂.readBuf addr = some
      { wholeBuf addr len with
        status := .used, size := takeSize split size (wholeBuf addr len) } := hread
  rw [wholeBlock, wholeBuf] at hm₁'
  simp only [MemStatusManager.createMemBlockAndMemBuf, Option.bind_eq_bind, hm₁',
    Option.bind_some, hm₂', hread']
  rfl

theorem Created.perm (h : Created split size addr len streamId m m' L R) :
    (L ++ R).Perm m.memBlockList := by
  have hperm := perm_insertMemBlock (wholeBlock addr len streamId) m.memBlockList
  rw [h.place] at hperm
  exact (List.perm_middle.symm.trans hperm).cons_inv

theorem Created.inv (hsplits : Splits split) (hinv : MngInv m)
    (hfresh : Fresh addr len m.memBlockList) (hask : Asked size) (hfits : size ≤ len)
    (h : Created split size addr len streamId m m' L R) : MngInv m' := by
  have hlen : 0 < len := hask.1.trans_le hfits
  have hplaced := placed_insert streamId hinv hfresh hlen
  have hspace := inSpace_insert streamId hinv hfresh
  have hat : At (insertMemBlock (wholeBlock addr len streamId) m.memBlockList) L
      (wholeBlock addr len streamId) R [] (wholeBuf addr len) [] := ⟨h.place, rfl⟩
  have htiles := tiles_takeBufs (m := { m with
    memBlockList := insertMemBlock (wholeBlock addr len streamId) m.memBlockList })
    hsplits hplaced hspace hat hask hfits
  rw [List.nil_append, List.append_nil] at htiles
  have hindex : ∀ s, (sizeMapOf m.idleMemBufs s).entries.Perm
      (idleEntries s L ++ idleEntries s R) := by
    intro s
    rw [← idleEntries_append]
    exact (hinv.indexed s).trans (h.perm.symm.flatMap_right _)
  refine MngInv.replace h.blocks ?_ ?_ ?_ ?_ noEager_takeBufs ?_ ?_
  · rw [h.blocks]
    exact hplaced.setBufs hat htiles
  · rw [h.blocks]
    exact hspace.setBufs h.place _
  · intro b hb
    have hmem := h.perm.mem_iff.mp hb
    exact ⟨hinv.coalesced b hmem, fun x hx => hinv.noEager x (mem_allBufs.mpr ⟨b, hmem, hx⟩)⟩
  · have hchain : ([] ++ takeBufs split size (wholeBuf addr len) ++ []).IsChain NotBothIdle :=
      isChain_takeBufs List.isChain_nil List.isChain_nil (by simp)
    simpa using hchain
  · show (sizeMapOf m'.idleMemBufs streamId).entries.Perm _
    rw [h.index, if_pos rfl]
    exact perm_addRest split size _ (hindex streamId)
  · intro s hs
    have hne : s ≠ streamId := Ne.symm hs
    rw [h.index, if_neg hne]
    exact hindex s

end Create

end Ccbase.DynamicMem
