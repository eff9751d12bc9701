import Ccbase.Memory.AllocatorInv

/-!
# The primitive edits of an allocator

Each edit acts on a detached buffer `p`: it changes its data, merges it with a
neighbour, cuts off its end, or puts it back into the set of its status. The
lemmas of this module say that `AllocInv` survives each of them; the methods of
the allocator are compositions of these edits.
-/

namespace Ccbase.Memory

open Ccbase.Lib Chain

theorem dataOf_modify {f : MemBuf → MemBuf} {g : BufData → BufData}
    (hfg : ∀ b, (f b).data = g b.data) (bufs : Heap MemBuf) (p : Nat) :
    dataOf (bufs.modify p f) = (dataOf bufs).modify p g :=
  Heap.map_modify hfg bufs p

/-- Writes to the links are not seen in the data. -/
@[simp] theorem dataOf_modify_prev (bufs : Heap MemBuf) (p : Nat) (q : Option Nat) :
    dataOf (bufs.modify p fun b => { b with prev := q }) = dataOf bufs := by
  apply Heap.map_modify_eq
  exact fun _ => rfl

@[simp] theorem dataOf_modify_next (bufs : Heap MemBuf) (p : Nat) (q : Option Nat) :
    dataOf (bufs.modify p fun b => { b with next := q }) = dataOf bufs := by
  apply Heap.map_modify_eq
  exact fun _ => rfl

@[simp] theorem dataOf_modify?_prev (bufs : Heap MemBuf) (p q : Option Nat) :
    dataOf (bufs.modify? p fun b => { b with prev := q }) = dataOf bufs := by
  apply Heap.map_modify?_eq
  exact fun _ => rfl

@[simp] theorem dataOf_modify?_next (bufs : Heap MemBuf) (p q : Option Nat) :
    dataOf (bufs.modify? p fun b => { b with next := q }) = dataOf bufs := by
  apply Heap.map_modify?_eq
  exact fun _ => rfl

theorem dataOf_new (bufs : Heap MemBuf) (b : MemBuf) :
    dataOf (bufs.new b) = (dataOf bufs).new b.data :=
  Heap.map_new _ bufs b

theorem dataOf_delete (bufs : Heap MemBuf) (p : Nat) :
    dataOf (bufs.delete p) = (dataOf bufs).delete p :=
  Heap.map_delete _ bufs p

variable {bufs bufs' : Heap MemBuf} {blocks blocks' : Heap MemBlock}
  {al al' : MemBufAllocator} {lay : Nat → List Nat} {x : Option Nat} {p q : Nat} {b : MemBuf}

/-! ## Detaching, attaching and retagging -/

/-- A buffer in use is in no set. -/
theorem AllocInv.detach (h : AllocInv bufs blocks al lay none) (hp : bufs.get p = some b)
    (hst : ¬ b.status.isFree) : AllocInv bufs blocks al lay (some p) :=
  { h with
    free := h.free.detach (dataOf_get hp) fun heq => hst (.inl heq)
    eager := h.eager.detach (dataOf_get hp) fun heq => hst (.inr heq) }

theorem AllocInv.attach (h : AllocInv bufs blocks al lay (some p)) (hp : bufs.get p = some b)
    (hst : ¬ b.status.isFree) : AllocInv bufs blocks al lay none :=
  { h with
    free := h.free.attach (dataOf_get hp) fun heq => hst (.inl heq)
    eager := h.eager.attach (dataOf_get hp) fun heq => hst (.inr heq) }

/-- The idle candidate of `Malloc` leaves its set. -/
theorem AllocInv.eraseFree (h : AllocInv bufs blocks al lay none) (hp : bufs.get p = some b)
    (hst : b.status = .idle) :
    AllocInv bufs blocks { al with freeMemBufs := al.freeMemBufs.erase p } lay (some p) :=
  { h with
    free := h.free.erase_mem
    eager := h.eager.detach (dataOf_get hp) fun heq => by
      have : b.status = .eagerFree := heq
      rw [hst] at this
      cases this }

theorem AllocInv.eraseEagerFree (h : AllocInv bufs blocks al lay none)
    (hp : bufs.get p = some b) (hst : b.status = .eagerFree) :
    AllocInv bufs blocks { al with eagerFreeMemBufs := al.eagerFreeMemBufs.erase p } lay
      (some p) :=
  { h with
    eager := h.eager.erase_mem
    free := h.free.detach (dataOf_get hp) fun heq => by
      have : b.status = .idle := heq
      rw [hst] at this
      cases this }

/-- Writes to the detached buffer that leave it in its place. -/
theorem AllocInv.retag {f : MemBuf → MemBuf} {g : BufData → BufData}
    (h : AllocInv bufs blocks al lay (some p)) (hp : bufs.get p = some b)
    (hfg : ∀ b, (f b).data = g b.data) (hshape : shape (f b) = shape b)
    (hblk : (f b).memBlock = b.memBlock) (hB : b.memBlock ∈ al.memBlocks)
    (hquiet : (f b).status.isFree → (f b).isEventNotUsed = true) :
    AllocInv (bufs.modify p f) blocks al lay (some p) := by
  have hmem := h.mem_lay hp hB
  suffices key : AllocInv (bufs.modify p f) blocks al
      (Function.update lay b.memBlock (lay b.memBlock)) (some p) by
    rwa [Function.update_eq_self] at key
  refine h.rechain hB ⟨?_, ?_, ?_, ?_⟩ (h.nodup _ hB) ?_ rfl ?_ ?_ ?_
  · intro r hr _
    exact Heap.get_modify_ne _ _ fun heq => hr (heq ▸ hmem)
  · exact fun r hr hr' => absurd hr hr'
  · exact fun r hr hr' => absurd hr hr'
  · intro r hr
    by_cases hrp : r = p
    · subst hrp
      exact ⟨f b, by simp [hp], hblk⟩
    · rw [Heap.get_modify_ne _ _ hrp]
      exact h.memBlock_of_mem hB hr
  · intro blk hblk
    obtain ⟨blk', hblk', hseg⟩ := h.chain _ hB
    rw [hblk] at hblk'
    cases hblk'
    refine hseg.congr fun r _ => ?_
    by_cases hrp : r = p
    · subst hrp
      rw [Heap.get_modify_self, hp]
      simp [hshape]
    · rw [Heap.get_modify_ne _ _ hrp]
  · intro r d hd hdB hfree
    obtain ⟨b', hb', rfl⟩ := dataOf_get_some hd
    by_cases hrp : r = p
    · subst hrp
      rw [Heap.get_modify_self, hp] at hb'
      cases hb'
      exact hquiet hfree
    · rw [Heap.get_modify_ne _ _ hrp] at hb'
      exact h.quiet r _ (dataOf_get hb') hdB hfree
  · rw [dataOf_modify hfg]
    exact h.free.modify g
  · rw [dataOf_modify hfg]
    exact h.eager.modify g

/-- A buffer in use that stays in use may change everything but its place. -/
theorem AllocInv.touch {f : MemBuf → MemBuf} {g : BufData → BufData}
    (h : AllocInv bufs blocks al lay none) (hp : bufs.get p = some b)
    (hfg : ∀ b, (f b).data = g b.data) (hshape : shape (f b) = shape b)
    (hblk : (f b).memBlock = b.memBlock) (hB : b.memBlock ∈ al.memBlocks)
    (hst : ¬ b.status.isFree) (hst' : ¬ (f b).status.isFree) :
    AllocInv (bufs.modify p f) blocks al lay none :=
  ((h.detach hp hst).retag hp hfg hshape hblk hB fun hf => absurd hf hst').attach
    (by rw [Heap.get_modify_self, hp]; rfl) hst'

/-- The borders of a block may move. -/
theorem AllocInv.blocks_congr (h : AllocInv bufs blocks al lay x)
    (hblk : blocks'.map MemBlock.span = blocks.map MemBlock.span) :
    AllocInv bufs blocks' al lay x := by
  have hblk : ∀ C, (blocks'.get C).map MemBlock.span = (blocks.get C).map MemBlock.span :=
    fun C => congrArg (fun H : Heap (Nat × Nat) => H.get C) hblk
  refine { h with chain := ?_, apart := ?_ }
  · intro C hC
    obtain ⟨blk, hb, hseg⟩ := h.chain C hC
    have := hblk C
    rw [hb] at this
    obtain ⟨blk', hb', heq⟩ := Option.map_eq_some_iff.mp this
    simp only [MemBlock.span, Prod.mk.injEq] at heq
    exact ⟨blk', hb', by rw [heq.1, heq.2]; exact hseg⟩
  · intro C hC C' hC' hne blk blk' hb hb'
    have h1 := hblk C
    have h2 := hblk C'
    rw [hb] at h1
    rw [hb'] at h2
    obtain ⟨k, hk, heq⟩ := Option.map_eq_some_iff.mp h1.symm
    obtain ⟨k', hk', heq'⟩ := Option.map_eq_some_iff.mp h2.symm
    simp only [MemBlock.span, Prod.mk.injEq] at heq heq'
    have := h.apart C hC C' hC' hne k k' hk hk'
    unfold MemBlock.Apart at this ⊢
    omega

/-- The detached buffer is put into the set of its status. -/
theorem AllocInv.emplace (h : AllocInv bufs blocks al lay (some p)) (hp : bufs.get p = some b)
    (hB : b.memBlock ∈ al.memBlocks) (hst : b.status.isFree) :
    AllocInv bufs blocks (al.emplace bufs b.status p) lay none := by
  have huniq : ∀ r e, (dataOf bufs).get r = some e → e.memBlock ∈ al.memBlocks →
      0 < b.data.size → dataKey (dataOf bufs) r = dataKey (dataOf bufs) p → r = p := by
    intro r e he heB hpos hkey
    exact (h.eq_of_key (dataOf_get hp) he hB heB hpos hkey.symm).symm
  rcases hst with hst | hst
  · rw [hst]
    have heager : SetOk (dataOf bufs) al.memBlocks .eagerFree al.eagerFreeMemBufs none :=
      h.eager.attach (dataOf_get hp) fun heq => by
        have : b.status = .eagerFree := heq
        rw [hst] at this
        cases this
    refine { h with free := ?_, eager := heager }
    show SetOk (dataOf bufs) al.memBlocks .idle
      (OrdSet.emplace (memBufKey bufs) p al.freeMemBufs) none
    rw [memBufKey_eq]
    exact h.free.emplace (dataOf_get hp) hB hst huniq
  · rw [hst]
    have hfree : SetOk (dataOf bufs) al.memBlocks .idle al.freeMemBufs none :=
      h.free.attach (dataOf_get hp) fun heq => by
        have : b.status = .idle := heq
        rw [hst] at this
        cases this
    refine { h with free := hfree, eager := ?_ }
    show SetOk (dataOf bufs) al.memBlocks .eagerFree
      (OrdSet.emplace (memBufKey bufs) p al.eagerFreeMemBufs) none
    rw [memBufKey_eq]
    exact h.eager.emplace (dataOf_get hp) hB hst huniq

/-! ## Merging -/

/-- The detached buffer has taken over its neighbour `q`: `bufs'` is memory
right before `q` is deleted, `ps'` the chain without `q`. -/
theorem AllocInv.absorb {y : MemBuf} {ps' : List Nat} {g : BufData → BufData}
    (h : AllocInv bufs blocks al lay (some p)) (hp : bufs.get p = some b)
    (hq : bufs.get q = some y) (hpq : p ≠ q) (hB : b.memBlock ∈ al.memBlocks)
    (hBq : y.memBlock = b.memBlock) (hfree : y.status.isFree)
    (hdata : dataOf bufs' = (dataOf bufs).modify p g)
    (hg : (g b.data).memBlock = b.memBlock)
    (hquiet : (g b.data).isEventNotUsed = b.isEventNotUsed)
    (hbq : b.isEventNotUsed = true)
    (hout : ∀ r, r ∉ lay b.memBlock → bufs'.get r = bufs.get r)
    (hps : ∀ r, r ∈ ps' ↔ r ∈ lay b.memBlock ∧ r ≠ q) (hnd : ps'.Nodup)
    (hseg : ∀ blk, blocks.get b.memBlock = some blk →
      Seg (bufs'.delete q) none blk.addr ps' none (blk.addr + blk.size)) :
    AllocInv (bufs'.delete q) blocks (al.erase bufs' y.status q)
      (Function.update lay b.memBlock ps') (some p) ∧
      Outside al.memBlocks bufs (bufs'.delete q) := by
  have hBy : y.memBlock ∈ al.memBlocks := hBq ▸ hB
  have hgetD : ∀ r, r ≠ p → (dataOf bufs').get r = (dataOf bufs).get r := fun r hr => by
    rw [hdata, Heap.get_modify_ne _ _ hr]
  -- keys are unique, so that erasing by key takes out `q` and nothing else
  have huniq : ∀ r e, (dataOf bufs').get r = some e → e.memBlock ∈ al.memBlocks →
      0 < e.size → r ≠ p → dataKey (dataOf bufs') r = dataKey (dataOf bufs') q → r = q := by
    intro r e he heB hpos hr hkey
    rw [dataKey_congr (hgetD r hr), dataKey_congr (hgetD q hpq.symm)] at hkey
    rw [hgetD r hr] at he
    exact h.eq_of_key he (dataOf_get hq) heB hBy hpos hkey
  have hkeep : ∀ st ps, SetOk (dataOf bufs) al.memBlocks st ps (some p) → y.status ≠ st →
      SetOk (dataOf (bufs'.delete q)) al.memBlocks st ps (some p) := by
    intro st ps hs hne
    rw [dataOf_delete, hdata]
    refine (hs.modify g).delete fun hmem => ?_
    obtain ⟨_, d, hd, _, hst⟩ := hs.sound q hmem
    rw [dataOf_get hq] at hd
    cases hd
    exact hne hst
  have herase : ∀ st ps, SetOk (dataOf bufs) al.memBlocks st ps (some p) →
      SetOk (dataOf (bufs'.delete q)) al.memBlocks st
        (OrdSet.erase (memBufKey bufs') (memBufKey bufs' q) ps) (some p) := by
    intro st ps hs
    rw [dataOf_delete, memBufKey_eq]
    refine SetOk.erase_delete ?_ huniq
    rw [hdata]
    exact hs.modify g
  have hown : (al.erase bufs' y.status q).memBlocks = al.memBlocks := by
    rcases hfree with hst | hst <;> rw [hst] <;> rfl
  -- outside its block nothing has changed
  have hrech : Rechain bufs (bufs'.delete q) b.memBlock (lay b.memBlock) ps' := by
    refine ⟨?_, ?_, ?_, ?_⟩
    · intro r hr _
      have hrq : r ≠ q := fun heq => hr (heq ▸ hBq ▸ h.mem_lay hq hBy)
      rw [Heap.get_delete_ne _ hrq, hout r hr]
    · intro r hr hr'
      have hrq : r = q := by
        by_cases hrq : r = q
        · exact hrq
        · exact absurd ((hps r).mpr ⟨hr, hrq⟩) hr'
      rw [hrq, Heap.get_delete_self]
    · exact fun r hr hr' => absurd ((hps r).mp hr).1 hr'
    · intro r hr
      obtain ⟨hrl, hrq⟩ := (hps r).mp hr
      obtain ⟨b₀, hb₀, hB₀⟩ := h.memBlock_of_mem hB hrl
      have hsome : ∃ d, (dataOf (bufs'.delete q)).get r = some d ∧ d.memBlock = b.memBlock := by
        rw [dataOf_delete, Heap.get_delete_ne _ hrq]
        by_cases hrp : r = p
        · rw [hrp, hdata, Heap.get_modify_self, dataOf_get hp]
          exact ⟨_, rfl, hg⟩
        · rw [hgetD r hrp, dataOf_get hb₀]
          exact ⟨_, rfl, hB₀⟩
      obtain ⟨d, hd, hdB⟩ := hsome
      obtain ⟨b', hb', rfl⟩ := dataOf_get_some hd
      exact ⟨b', hb', hdB⟩
  -- the set of the status loses `q`, the other one stays
  refine ⟨h.rechain hB hrech hnd hseg hown ?_ ?_ ?_,
    .of_rechain hrech (fun r hr => h.memBlock_of_mem hB hr) hB⟩
  · intro r d hd hdB hst
    rw [dataOf_delete, Heap.get_delete] at hd
    split at hd
    · cases hd
    · by_cases hrp : r = p
      · rw [hrp, hdata, Heap.get_modify_self, dataOf_get hp] at hd
        cases hd
        exact hquiet.trans hbq
      · rw [hgetD r hrp] at hd
        exact h.quiet r d hd hdB hst
  · rcases hfree with hst | hst
    · rw [hst]
      exact herase _ _ h.free
    · rw [hst]
      exact hkeep _ _ h.free (by rw [hst]; decide)
  · rcases hfree with hst | hst
    · rw [hst]
      exact hkeep _ _ h.eager (by rw [hst]; decide)
    · rw [hst]
      exact herase _ _ h.eager

section Neighbours

/-- Only a free status has a set an element can be erased from. -/
@[simp] theorem MemBufAllocator.erase_memBlocks (al : MemBufAllocator) (bufs : Heap MemBuf)
    (st : MemBufStatus) (q : Nat) : (al.erase bufs st q).memBlocks = al.memBlocks := by
  cases st <;> rfl

@[simp] theorem MemBufAllocator.erase_enableEagerFree (al : MemBufAllocator)
    (bufs : Heap MemBuf) (st : MemBufStatus) (q : Nat) :
    (al.erase bufs st q).enableEagerFree = al.enableEagerFree := by
  cases st <;> rfl

/-- The left neighbour of a buffer ends where the buffer starts. -/
theorem AllocInv.left_neighbour (h : AllocInv bufs blocks al lay x) (hp : bufs.get p = some b)
    (hB : b.memBlock ∈ al.memBlocks) (hq : b.prev = some q) :
    ∃ L R y, lay b.memBlock = L ++ q :: p :: R ∧ bufs.get q = some y ∧
      y.memBlock = b.memBlock ∧ y.addr + y.size = b.addr ∧ y.prev = L.getLast? := by
  obtain ⟨blk, _, hseg⟩ := h.chain _ hB
  obtain ⟨L₀, R, hlay⟩ := List.append_of_mem (h.mem_lay hp hB)
  rw [hlay] at hseg
  obtain ⟨b₁, hb₁, hprev, _⟩ := hseg.split
  rw [hp] at hb₁
  cases hb₁
  have hlast : L₀.getLast? = some q := by
    rw [← hq]
    simpa using hprev.symm
  obtain ⟨L, rfl⟩ := List.getLast?_eq_some_iff.mp hlast
  rw [List.append_assoc, List.singleton_append] at hlay hseg
  obtain ⟨y, hy, hyprev, _, _, b₁, hb₁, _, _, hlo, _⟩ := hseg.split
  rw [hp] at hb₁
  cases hb₁
  obtain ⟨y', hy', hyB⟩ := h.memBlock_of_mem hB (p := q) (by rw [hlay]; simp)
  rw [hy] at hy'
  cases hy'
  exact ⟨L, R, y, hlay, hy, hyB, hlo.symm, by simpa using hyprev⟩

/-- The right neighbour of a buffer starts where the buffer ends. -/
theorem AllocInv.right_neighbour (h : AllocInv bufs blocks al lay x)
    (hp : bufs.get p = some b) (hB : b.memBlock ∈ al.memBlocks) (hq : b.next = some q) :
    ∃ L R y, lay b.memBlock = L ++ p :: q :: R ∧ bufs.get q = some y ∧
      y.memBlock = b.memBlock ∧ b.addr + b.size = y.addr ∧ y.next = R.head? := by
  obtain ⟨blk, _, hseg⟩ := h.chain _ hB
  obtain ⟨L, R₀, hlay⟩ := List.append_of_mem (h.mem_lay hp hB)
  rw [hlay] at hseg
  obtain ⟨b₁, hb₁, _, hnext, _, hR⟩ := hseg.split
  rw [hp] at hb₁
  cases hb₁
  cases R₀ with
  | nil =>
      rw [MemBuf.node_next, hq] at hnext
      cases hnext
  | cons q' R =>
      rw [MemBuf.node_next, hq] at hnext
      cases hnext
      obtain ⟨y, hy, _, hynext, hlo, _⟩ := hR
      obtain ⟨y', hy', hyB⟩ := h.memBlock_of_mem hB (p := q) (by rw [hlay]; simp)
      rw [hy] at hy'
      cases hy'
      exact ⟨L, R, y, hlay, hy, hyB, hlo.symm, by simpa using hynext⟩

open MemBufAllocator

theorem dataOf_absorbPrev (bufs : Heap MemBuf) (p : Nat) (y : MemBuf) :
    dataOf (absorbPrev p y bufs) =
      (dataOf bufs).modify p fun d => { d with addr := y.addr, size := d.size + y.size } := by
  unfold absorbPrev
  rw [dataOf_modify (g := fun d => { d with addr := y.addr, size := d.size + y.size })
    fun _ => rfl, dataOf_modify?_next, dataOf_modify_prev]

theorem dataOf_absorbNext (bufs : Heap MemBuf) (p : Nat) (y : MemBuf) :
    dataOf (absorbNext p y bufs) =
      (dataOf bufs).modify p fun d => { d with size := d.size + y.size } := by
  unfold absorbNext
  rw [dataOf_modify (g := fun d => { d with size := d.size + y.size }) fun _ => rfl,
    dataOf_modify?_prev, dataOf_modify_next]

theorem absorbPrev_get_ne {y : MemBuf} {r : Nat} (hr : r ≠ p) :
    (absorbPrev p y bufs).get r = (bufs.modify? y.prev (Node.setNext (some p))).get r := by
  unfold absorbPrev
  rw [Heap.get_modify_ne _ _ hr]
  exact Heap.get_modify?_congr (Heap.get_modify_ne _ _ hr) _ _

theorem absorbNext_get_ne {y : MemBuf} {r : Nat} (hr : r ≠ p) :
    (absorbNext p y bufs).get r = (bufs.modify? y.next (Node.setPrev (some p))).get r := by
  unfold absorbNext
  rw [Heap.get_modify_ne _ _ hr]
  exact Heap.get_modify?_congr (Heap.get_modify_ne _ _ hr) _ _

theorem absorbPrev_get_self {y : MemBuf} (hp : bufs.get p = some b) (hy : y.prev ≠ some p) :
    (absorbPrev p y bufs).get p =
      some { b with prev := y.prev, addr := y.addr, size := b.size + y.size } := by
  unfold absorbPrev
  rw [Heap.get_modify_self, Heap.get_modify?_ne _ _ hy, Heap.get_modify_self, hp]
  rfl

theorem absorbNext_get_self {y : MemBuf} (hp : bufs.get p = some b) (hy : y.next ≠ some p) :
    (absorbNext p y bufs).get p = some { b with next := y.next, size := b.size + y.size } := by
  unfold absorbNext
  rw [Heap.get_modify_self, Heap.get_modify?_ne _ _ hy, Heap.get_modify_self, hp]
  rfl

end Neighbours

/-! ## Cutting off the end -/

/-- A new buffer of another status is no concern of a set. -/
theorem SetOk.new_ne {D : Heap BufData} {own : List Nat} {st : MemBufStatus} {ps : List Nat}
    (h : SetOk D own st ps x) {d : BufData} (hst : d.status ≠ st) :
    SetOk (D.new d) own st ps x := by
  refine h.congr (fun r hr => ?_) (fun r e he hB hste hpos _ => ?_)
  · obtain ⟨_, e, he, _⟩ := h.sound r hr
    exact ⟨e, e, he, by rw [Heap.get_new, if_neg (Heap.ne_next he), he], rfl, rfl, rfl, rfl⟩
  · rw [Heap.get_new] at he
    split at he
    · cases he
      exact absurd hste hst
    · exact ⟨e, he, hB, hste, hpos⟩

/-- A new buffer goes into the set of its status. -/
theorem SetOk.new_emplace {D : Heap BufData} {own : List Nat} {st : MemBufStatus}
    {ps : List Nat} (h : SetOk D own st ps x) {d : BufData} (hst : d.status = st)
    (hB : d.memBlock ∈ own) (hx : x ≠ some D.next)
    (huniq : ∀ r ∈ ps, ∀ e, D.get r = some e → 0 < d.size →
      toLex (e.size, e.addr) ≠ toLex (d.size, d.addr)) :
    SetOk (D.new d) own st (OrdSet.emplace (dataKey (D.new d)) D.next ps) x := by
  have hget : ∀ r ∈ ps, ∃ e, D.get r = some e ∧ (D.new d).get r = some e := by
    intro r hr
    obtain ⟨_, e, he, _⟩ := h.sound r hr
    exact ⟨e, he, by rw [Heap.get_new, if_neg (Heap.ne_next he), he]⟩
  have hsorted : OrdSet.Sorted (dataKey (D.new d)) ps := h.sorted.congr fun r hr => by
    obtain ⟨e, he, he'⟩ := hget r hr
    rw [dataKey_of_get he, dataKey_of_get he']
  refine ⟨OrdSet.sorted_emplace hsorted, fun r hr => ?_, fun r e he hBe hste hpos hxr => ?_⟩
  · rcases OrdSet.mem_emplace hr with rfl | hr
    · exact ⟨hx, d, Heap.get_new_self D d, hB, hst⟩
    · obtain ⟨hxr, e, he, hBe, hste⟩ := h.sound r hr
      exact ⟨hxr, e, by rw [Heap.get_new, if_neg (Heap.ne_next he), he], hBe, hste⟩
  · rw [Heap.get_new] at he
    split at he
    · rename_i hr
      cases he
      rw [hr]
      refine OrdSet.mem_emplace_self fun y hy hkey => ?_
      obtain ⟨e, he, he'⟩ := hget y hy
      rw [dataKey_of_get he', dataKey_of_get (Heap.get_new_self D d)] at hkey
      exact huniq y hy e he hpos hkey
    · exact OrdSet.mem_emplace_of_mem (h.complete r e he hBe hste hpos hxr)

/-- `bufs'` is `bufs` after the end of `p` has become a buffer `rest` of its
own, linked right behind `p`. -/
structure Spliced (bufs bufs' : Heap MemBuf) (p : Nat) (b rest : MemBuf) (n : Nat) : Prop where
  next : bufs'.next = bufs.next + 1
  left : bufs'.get p = some { b with next := some bufs.next, size := n }
  right : bufs'.get bufs.next = some { rest with prev := some p, next := b.next }
  others : ∀ r, r ≠ p → r ≠ bufs.next →
    bufs'.get r = (bufs.modify? b.next (Node.setPrev (some bufs.next))).get r

theorem Spliced.data {rest : MemBuf} {n : Nat} (hs : Spliced bufs bufs' p b rest n)
    (hp : bufs.get p = some b) :
    dataOf bufs' = ((dataOf bufs).new rest.data).modify p fun d => { d with size := n } := by
  have hpn : p ≠ bufs.next := Heap.ne_next hp
  refine Heap.ext (fun r => ?_) hs.next
  by_cases hrp : r = p
  · subst hrp
    rw [dataOf_get hs.left, Heap.get_modify_self, Heap.get_new, dataOf_next, if_neg hpn,
      dataOf_get hp]
    rfl
  · rw [Heap.get_modify_ne _ _ hrp, Heap.get_new, dataOf_next]
    by_cases hrq : r = bufs.next
    · rw [if_pos hrq, hrq, dataOf_get hs.right]
      rfl
    · rw [if_neg hrq]
      show (bufs'.get r).map MemBuf.data = _
      rw [hs.others r hrp hrq]
      exact congrArg (fun D => D.get r) (dataOf_modify?_prev bufs b.next (some bufs.next))

/-- The chain after a cut. -/
theorem Spliced.seg {rest : MemBuf} {n a z : Nat} {L R : List Nat}
    (hs : Spliced bufs bufs' p b rest n) (hp : bufs.get p = some b)
    (hseg : Seg bufs none a (L ++ p :: R) none z) (hnd : (L ++ p :: R).Nodup)
    (hn : n ≤ b.size) (haddr : rest.addr = b.addr + n) (hsize : rest.size = b.size - n) :
    Seg bufs' none a (L ++ p :: bufs.next :: R) none z := by
  have hpL : p ∉ L := fun hmem =>
    (List.nodup_append.mp hnd).2.2 p hmem p (by simp) rfl
  have hpR : p ∉ R := (List.nodup_cons.mp (List.nodup_append.mp hnd).2.1).1
  have hne : ∀ r ∈ L ++ p :: R, r ≠ bufs.next := fun r hr => by
    obtain ⟨y, hy, _⟩ := hseg.mem hr
    exact Heap.ne_next hy
  obtain ⟨b', hb', _, hnx, _⟩ := hseg.split
  rw [hp] at hb'
  cases hb'
  have hbn : b.next = R.head? := by simpa using hnx
  refine hseg.insertAfter hnd hp hs.left rfl rfl rfl hs.right rfl rfl haddr ?_ ?_ ?_
  · show n + rest.size = b.size
    omega
  · intro r hr
    rw [hs.others r (fun heq => hpL (heq ▸ hr)) (hne r (by simp [hr])), hbn]
    refine Heap.get_modify?_ne _ _ fun heq => ?_
    have hrR : r ∈ R := List.mem_of_head? heq
    exact (List.nodup_append.mp hnd).2.2 r hr r (by simp [hrR]) rfl
  · intro r hr
    rw [hs.others r (fun heq => hpR (heq ▸ hr)) (hne r (by simp [hr])), hbn]

/-- The invariant after a cut, given the two sets. -/
theorem AllocInv.cut {rest : MemBuf} {n : Nat} (x' : Option Nat)
    (h : AllocInv bufs blocks al lay x)
    (hs : Spliced bufs bufs' p b rest n) (hp : bufs.get p = some b)
    (hB : b.memBlock ∈ al.memBlocks) (hrest : rest.memBlock = b.memBlock)
    (hn : n ≤ b.size) (haddr : rest.addr = b.addr + n) (hsize : rest.size = b.size - n)
    (hquiet : rest.isEventNotUsed = true) (hown : al'.memBlocks = al.memBlocks)
    (hfree : SetOk (dataOf bufs') al.memBlocks .idle al'.freeMemBufs x')
    (heager : SetOk (dataOf bufs') al.memBlocks .eagerFree al'.eagerFreeMemBufs x') :
    Outside al.memBlocks bufs bufs' ∧ ∃ L R, lay b.memBlock = L ++ p :: R ∧
      AllocInv bufs' blocks al' (Function.update lay b.memBlock (L ++ p :: bufs.next :: R))
        x' := by
  obtain ⟨L, R, hlay⟩ := List.append_of_mem (h.mem_lay hp hB)
  have hnd := h.nodup _ hB
  rw [hlay] at hnd
  have hmem : ∀ r, r ∈ L ++ p :: bufs.next :: R ↔ r = bufs.next ∨ r ∈ lay b.memBlock := by
    intro r
    rw [hlay]
    simp only [List.mem_append, List.mem_cons]
    tauto
  have hfresh : bufs.next ∉ lay b.memBlock := fun hmem => by
    obtain ⟨y, hy, _⟩ := h.memBlock_of_mem hB hmem
    exact Heap.ne_next hy rfl
  have hothers : ∀ r, r ≠ p → r ≠ bufs.next →
      (dataOf bufs').get r = (dataOf bufs).get r := by
    intro r hrp hrq
    rw [hs.data hp, Heap.get_modify_ne _ _ hrp, Heap.get_new, dataOf_next, if_neg hrq]
  -- in its block the new buffer stands behind `p`, and the other blocks are as before
  have hrech : Rechain bufs bufs' b.memBlock (lay b.memBlock) (L ++ p :: bufs.next :: R) := by
    refine ⟨?_, ?_, ?_, ?_⟩
    · intro r hr hr'
      have hrp : r ≠ p := fun heq => hr (heq ▸ h.mem_lay hp hB)
      have hrq : r ≠ bufs.next := fun heq => hr' ((hmem r).mpr (.inl heq))
      rw [hs.others r hrp hrq]
      -- the right neighbour gets a new `prev`, but it is in the block
      refine Heap.get_modify?_ne _ _ fun heq => ?_
      obtain ⟨blk, _, hseg⟩ := h.chain _ hB
      rw [hlay] at hseg
      obtain ⟨b', hb', _, hnx, _⟩ := hseg.split
      rw [hp] at hb'
      cases hb'
      have hrR : r ∈ R := List.mem_of_head? (by rw [← heq]; simpa using hnx.symm)
      exact hr (by rw [hlay]; simp [hrR])
    · exact fun r hr hr' => absurd ((hmem r).mpr (.inr hr)) hr'
    · intro r hr hr'
      rcases (hmem r).mp hr with heq | hr
      · rw [heq, Heap.get_next]
      · exact absurd hr hr'
    · intro r hr
      by_cases hrp : r = p
      · subst hrp
        exact ⟨_, hs.left, rfl⟩
      · rcases (hmem r).mp hr with heq | hr
        · subst heq
          exact ⟨_, hs.right, hrest⟩
        · obtain ⟨y, hy, hyB⟩ := h.memBlock_of_mem hB hr
          have hd := hothers r hrp (Heap.ne_next hy)
          rw [dataOf_get hy] at hd
          obtain ⟨y', hy', heq⟩ := dataOf_get_some hd
          exact ⟨y', hy', (congrArg BufData.memBlock heq).trans hyB⟩
  refine ⟨.of_rechain hrech (fun r hr => h.memBlock_of_mem hB hr) hB,
    L, R, hlay, h.rechain hB hrech ?_ ?_ hown ?_ hfree heager⟩
  · have := hnd
    have hfresh' : bufs.next ∉ L ∧ bufs.next ≠ p ∧ bufs.next ∉ R := by
      rw [hlay] at hfresh
      simpa [not_or] using hfresh
    rw [List.nodup_append] at this ⊢
    simp only [List.nodup_cons, List.mem_cons, not_or] at this ⊢
    refine ⟨this.1, ⟨⟨hfresh'.2.1.symm, this.2.1.1⟩, hfresh'.2.2, this.2.1.2⟩, ?_⟩
    intro r hr r' hr'
    rcases hr' with rfl | rfl | hr'
    · exact this.2.2 r hr _ (.inl rfl)
    · exact fun heq => hfresh'.1 (heq ▸ hr)
    · exact this.2.2 r hr r' (.inr hr')
  · intro blk hblk
    obtain ⟨blk', hblk', hseg⟩ := h.chain _ hB
    rw [hblk] at hblk'
    cases hblk'
    rw [hlay] at hseg
    exact hs.seg hp hseg hnd hn haddr hsize
  · intro r d hd hdB hst
    by_cases hrp : r = p
    · subst hrp
      rw [dataOf_get hs.left] at hd
      cases hd
      exact h.quiet r b.data (dataOf_get hp) hB hst
    · by_cases hrq : r = bufs.next
      · subst hrq
        rw [dataOf_get hs.right] at hd
        cases hd
        exact hquiet
      · rw [hothers r hrp hrq] at hd
        exact h.quiet r d hd hdB hst

/-! ## A new block -/

/-- A set of an allocator that gets a new block without buffers. -/
theorem SetOk.own_append {D : Heap BufData} {own : List Nat} {st : MemBufStatus}
    {ps : List Nat} {B : Nat} (h : SetOk D own st ps x)
    (hB : ∀ r d, D.get r = some d → d.memBlock ≠ B) : SetOk D (own ++ [B]) st ps x where
  sorted := h.sorted
  sound := fun r hr => by
    obtain ⟨hx, d, hd, hdB, hst⟩ := h.sound r hr
    exact ⟨hx, d, hd, by simp [hdB], hst⟩
  complete := fun r d hd hdB hst hpos hx => by
    have hown : d.memBlock ∈ own := by
      rcases List.mem_append.mp hdB with hm | hm
      · exact hm
      · exact absurd (List.mem_singleton.mp hm) (hB r d hd)
    exact h.complete r d hd hown hst hpos hx

/-- A block comes with one buffer that covers it, not attached yet. -/
theorem AllocInv.expand (h : AllocInv bufs blocks al lay none) (blk : MemBlock)
    (hapart : ∀ C ∈ al.memBlocks, ∀ k, blocks.get C = some k → blk.Apart k)
    (hnew : ∀ r d, (dataOf bufs).get r = some d → d.memBlock ≠ blocks.next)
    (haddr : b.addr = blk.addr) (hsize : b.size = blk.size) (hB : b.memBlock = blocks.next)
    (hprev : b.prev = none) (hnext : b.next = none) (hquiet : b.isEventNotUsed = true) :
    AllocInv (bufs.new b) (blocks.new blk)
      { al with memBlocks := al.memBlocks ++ [blocks.next] }
      (Function.update lay blocks.next [bufs.next]) (some bufs.next) := by
  have hold : ∀ C ∈ al.memBlocks, C ≠ blocks.next := fun C hC => by
    obtain ⟨k, hk, _⟩ := h.chain C hC
    exact Heap.ne_next hk
  -- each fact is the old one for the old blocks, and clear for the new one
  have hcases : ∀ C, C ∈ al.memBlocks ++ [blocks.next] →
      (C ∈ al.memBlocks ∧ C ≠ blocks.next) ∨ C = blocks.next := by
    intro C hC
    rcases List.mem_append.mp hC with hC | hC
    · exact .inl ⟨hC, hold C hC⟩
    · exact .inr (List.mem_singleton.mp hC)
  have hgetD : ∀ r d, (dataOf (bufs.new b)).get r = some d →
      (r = bufs.next ∧ d = b.data) ∨ (r ≠ bufs.next ∧ (dataOf bufs).get r = some d) := by
    intro r d hd
    rw [dataOf_new, Heap.get_new, dataOf_next] at hd
    split at hd
    · cases hd
      exact .inl ⟨by assumption, rfl⟩
    · exact .inr ⟨by assumption, hd⟩
  refine ⟨?_, ?_, ?_, ?_, ?_, ?_, ?_, ?_⟩
  · refine List.nodup_append.mpr ⟨h.blocksNodup, List.nodup_singleton _, ?_⟩
    intro C hC C' hC'
    rw [List.mem_singleton.mp hC']
    exact hold C hC
  · intro C hC
    rcases hcases C hC with ⟨hC, hne⟩ | rfl
    · obtain ⟨k, hk, hseg⟩ := h.chain C hC
      refine ⟨k, by rw [Heap.get_new, if_neg hne, hk], ?_⟩
      rw [Function.update_of_ne hne]
      refine hseg.congr_get fun r hr => ?_
      obtain ⟨y, hy, _⟩ := h.memBlock_of_mem hC hr
      rw [Heap.get_new, if_neg (Heap.ne_next hy)]
    · -- the one buffer of the new block fills it
      refine ⟨blk, Heap.get_new_self _ _, ?_⟩
      rw [Function.update_self]
      refine ⟨b, Heap.get_new_self _ _, hprev, by simpa using hnext, haddr, ?_⟩
      show blk.addr + b.size = blk.addr + blk.size
      rw [hsize]
  · intro C hC
    rcases hcases C hC with ⟨hC, hne⟩ | rfl
    · rw [Function.update_of_ne hne]
      exact h.nodup C hC
    · rw [Function.update_self]
      exact List.nodup_singleton _
  · intro C hC r
    rcases hcases C hC with ⟨hC, hne⟩ | rfl
    · rw [Function.update_of_ne hne, h.mem_iff C hC r]
      constructor
      · rintro ⟨d, hd, hdC⟩
        have hrn : r ≠ (dataOf bufs).next := Heap.ne_next hd
        exact ⟨d, by rw [dataOf_new, Heap.get_new, if_neg hrn, hd], hdC⟩
      · rintro ⟨d, hd, hdC⟩
        rcases hgetD r d hd with ⟨_, rfl⟩ | ⟨_, hd⟩
        · exact absurd (hdC.symm.trans hB) hne
        · exact ⟨d, hd, hdC⟩
    · rw [Function.update_self, List.mem_singleton]
      constructor
      · rintro rfl
        exact ⟨b.data, dataOf_get (Heap.get_new_self _ _), hB⟩
      · rintro ⟨d, hd, hdC⟩
        rcases hgetD r d hd with ⟨hr, _⟩ | ⟨_, hd⟩
        · exact hr
        · exact absurd hdC (hnew r d hd)
  · intro C hC C' hC' hne k k' hk hk'
    rcases hcases C hC with ⟨hC, hCn⟩ | rfl
    · rw [Heap.get_new, if_neg hCn] at hk
      rcases hcases C' hC' with ⟨hC', hCn'⟩ | rfl
      · rw [Heap.get_new, if_neg hCn'] at hk'
        exact h.apart C hC C' hC' hne k k' hk hk'
      · rw [Heap.get_new_self] at hk'
        cases hk'
        exact (hapart C hC k hk).symm
    · rw [Heap.get_new_self] at hk
      cases hk
      rcases hcases C' hC' with ⟨hC', hCn'⟩ | rfl
      · rw [Heap.get_new, if_neg hCn'] at hk'
        exact hapart C' hC' k' hk'
      · exact absurd rfl hne
  · intro r d hd hdB hst
    rcases hgetD r d hd with ⟨_, rfl⟩ | ⟨_, hd⟩
    · exact hquiet
    · rcases hcases _ hdB with ⟨hdB, _⟩ | hdB
      · exact h.quiet r d hd hdB hst
      · exact absurd hdB (hnew r d hd)
  · rw [dataOf_new]
    exact (h.free.own_append hnew).new b.data
  · rw [dataOf_new]
    exact (h.eager.own_append hnew).new b.data

end Ccbase.Memory
