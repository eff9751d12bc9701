import Ccbase.Memory.Sweep
import Ccbase.Memory.Unpaired
import Ccbase.Memory.PartFree

/-!
# Chains and sets in every run of the pool

`Tight` is the invariant of all operations of the pool together: the blocks are where they should
be, and no two neighbours are both idle or both eagerly free. It does not depend on events, so it
holds in runs that mix every `Call`, as long as `FreePartTensorMems` is given ranges that fit.
-/

namespace Ccbase.Memory

open Ccbase.Lib Chain Relation

variable {δ : Type} {dev : Device δ}

/-- `Unpaired` reads status, block and right link of a buffer. -/
theorem Unpaired.rewrite {own : List Nat} {bufs : Heap MemBuf} {x : Option Nat}
    (h : Unpaired own bufs x) (p : Nat) {f : MemBuf → MemBuf} {g : BufData → BufData}
    (hfg : ∀ b, (f b).data = g b.data) (hnext : ∀ b, (f b).next = b.next)
    (hst : ∀ d, (g d).status = d.status) (hB : ∀ d, (g d).memBlock = d.memBlock) :
    Unpaired own (bufs.modify p f) x := by
  have hold : ∀ q y, (bufs.modify p f).get q = some y → ∃ y₀, bufs.get q = some y₀ ∧
      y.next = y₀.next ∧ y.data.status = y₀.data.status ∧ y.data.memBlock = y₀.data.memBlock := by
    intro q y hy
    rw [Heap.get_modify] at hy
    split at hy
    · rename_i hqp
      obtain ⟨y₀, hy₀, rfl⟩ := Option.map_eq_some_iff.mp hy
      exact ⟨y₀, by rw [hqp]; exact hy₀, hnext y₀, by rw [hfg, hst], by rw [hfg, hB]⟩
    · exact ⟨y, hy, rfl, rfl, rfl⟩
  intro q y r e hq hyB hn hr hxq hxr htw
  obtain ⟨y₀, hy₀, hn₀, hst₀, hB₀⟩ := hold q y hq
  obtain ⟨z, hz, rfl⟩ := dataOf_get_some hr
  obtain ⟨z₀, hz₀, -, hstz, -⟩ := hold r z hz
  have hB₀ : y.memBlock = y₀.memBlock := hB₀
  refine h q y₀ r z₀.data hy₀ (by rw [← hB₀]; exact hyB) (by rw [← hn₀]; exact hn)
    (dataOf_get hz₀) hxq hxr ⟨?_, ?_⟩
  · rw [← hst₀, ← hstz]
    exact htw.1
  · rw [← hst₀]
    exact htw.2

namespace Pool

variable {law : DeviceLaw dev} {s s' : Pool δ} {k : AllocatorKey} {al : MemBufAllocator}
  {p n : Nat} {b : MemBuf}

/-- No two neighbours of any allocator are both idle or both eagerly free. -/
def AllUnpaired (s : Pool δ) : Prop :=
  ∀ k al, s.allocator? k = some al → Unpaired al.memBlocks s.bufs none

theorem AllUnpaired.putCtx {lay lay' : Nat → List Nat} {c : Ctx (Env δ)} (hu : AllUnpaired s)
    (h : Inv law 0 s)
    (hlay : ∀ k al, s.allocator? k = some al → AllocInv s.bufs s.blocks al lay none)
    (hal : s.allocator? k = some al) (hext : Ext (s.ctx al) c lay lay')
    (hc : Unpaired c.alloc.memBlocks c.bufs none) : AllUnpaired (s.putCtx k c) := by
  intro k' al' hal'
  rw [allocator?_putCtx hal] at hal'
  by_cases hk : k' = k
  · rw [if_pos hk] at hal'
    cases hal'
    exact hc
  · rw [if_neg hk] at hal'
    refine (hu k' al' hal').frame (hlay k' al' hal') hext.outside fun C hC hCc => ?_
    rcases hext.fresh C hCc with hCal | hCn
    · exact hk (h.base.excl k' k C ((owns_iff hal' C).mpr hC) ((owns_iff hal C).mpr hCal))
    · obtain ⟨r, hr, -⟩ := h.base.held k' C ((owns_iff hal' C).mpr hC)
      exact absurd (Heap.lt_next hr) (Nat.not_lt.mpr hCn)

/-- The invariant of all operations. -/
structure Tight (law : DeviceLaw dev) (s : Pool δ) : Prop extends Placed law s where
  unpaired : AllUnpaired s

theorem Placed.congr (h : Placed law s) (hinv : Inv law 0 s')
    (hsame : s'.arena.blocks = s.arena.blocks ∧ s'.arena.owns = s.arena.owns) : Placed law s' :=
  ⟨hinv, h.spread.congr hsame.1 hsame.2, h.inSpace.congr hsame.1 hsame.2⟩

theorem Placed.quiet (hdis : law.Disjoint) (hbd : dev.Bounded) (h : Placed law s)
    (hq : Quiet law 0 s s') : Placed law s' :=
  ⟨hq.inv, h.spread.path hdis h.inv.base hq.path, h.inSpace.path hbd hq.path⟩

theorem Placed.found {size : Nat} (hdis : law.Disjoint) (hbd : dev.Bounded) (h : Placed law s)
    (hf : Found law 0 size p k s s') : Placed law s' := by
  obtain ⟨A, s₁, m, hpath, ht, harena⟩ := hf.path
  obtain ⟨d₀, -, -, -, -, -, hblocks, hown⟩ := Arena.take_get ht
  have hblocks : s'.arena.blocks = A.blocks := by
    rw [harena]
    exact hblocks
  have howns : s'.arena.owns = A.owns := by
    rw [harena]
    exact Arena.put_owns_eq hown
  exact ⟨hf.inv, (h.spread.path hdis h.inv.base hpath).congr hblocks howns,
    (h.inSpace.path hbd hpath).congr hblocks howns⟩

/-- What the invariant reads. -/
theorem Tight.congr (h : Tight law s) (hinv : Inv law 0 s') (hbufs : s'.bufs = s.bufs)
    (hblocks : s'.blocks = s.blocks) (hal : ∀ k, s'.allocator? k = s.allocator? k) :
    Tight law s' := by
  refine ⟨h.toPlaced.congr hinv ⟨?_, ?_⟩, fun k al hk => ?_⟩
  · show s'.blocks.map _ = s.blocks.map _
    rw [hblocks]
  · funext k B
    show (∃ al, s'.allocator? k = some al ∧ B ∈ al.memBlocks) = _
    rw [hal]
    rfl
  · rw [hal] at hk
    rw [hbufs]
    exact h.unpaired k al hk

/-! ## The search for a buffer -/

section Search

variable (hdis : law.Disjoint) (hbd : dev.Bounded)

include hdis hbd

theorem Tight.malloc {size : Nat} {r : Option Nat} (h : Tight law s)
    (hres : Pool.malloc dev k size s = some (r, s')) : Tight law s' := by
  obtain ⟨hnone, hsome⟩ := malloc_spec h.inv hres
  refine ⟨?_, ?_⟩
  · cases r with
    | none => exact h.toPlaced.quiet hdis hbd (hnone rfl)
    | some p => exact h.toPlaced.found hdis hbd (hsome p rfl)
  · unfold Pool.malloc at hres
    split at hres
    · cases hres
      exact h.unpaired
    · rename_i al hal
      obtain ⟨⟨r', c⟩, hm, hres⟩ := Option.bind_eq_some_iff.mp hres
      cases hres
      obtain ⟨lay, hlay⟩ := h.inv.alloc
      have hcan := h.inv.canExpand hal
      obtain ⟨lay', hms⟩ := MemBufAllocator.malloc_spec (hlay k al hal) hcan hm
      exact h.unpaired.putCtx h.inv hlay hal hms.ext
        (MemBufAllocator.malloc_unpaired (hlay k al hal) hcan (h.unpaired k al hal) hm)

theorem Tight.mallocExpandBlock {size : Nat} {r : Option Nat} (h : Tight law s)
    (hres : Pool.mallocExpandBlock dev k size s = some (r, s')) : Tight law s' := by
  obtain ⟨hnone, hsome⟩ := mallocExpandBlock_spec h.inv hres
  refine ⟨?_, ?_⟩
  · cases r with
    | none => exact h.toPlaced.quiet hdis hbd (hnone rfl)
    | some p => exact h.toPlaced.found hdis hbd (hsome p rfl)
  · unfold Pool.mallocExpandBlock at hres
    split at hres
    · cases hres
      exact h.unpaired
    · rename_i al hal
      obtain ⟨⟨r', c⟩, hm, hres⟩ := Option.bind_eq_some_iff.mp hres
      cases hres
      obtain ⟨lay, hlay⟩ := h.inv.alloc
      have hcan := h.inv.canExpand hal
      obtain ⟨lay', hms⟩ := MemBufAllocator.mallocExpandBlock_spec (hlay k al hal) hcan hm
      exact h.unpaired.putCtx h.inv hlay hal hms.ext
        (MemBufAllocator.mallocExpandBlock_unpaired (hlay k al hal) hcan (h.unpaired k al hal) hm)

omit hdis hbd in
/-- A new allocator has no blocks. -/
theorem Tight.addAllocator (h : Tight law s) (isPersistent : Bool) (streamId : Nat) :
    Tight law (Pool.addAllocator dev isPersistent streamId s) := by
  have harena : (Pool.addAllocator dev isPersistent streamId s).arena = s.arena :=
    arena_addAllocator isPersistent streamId s
  refine ⟨h.toPlaced.congr (h.inv.addAllocator _ _) ?_, fun k al hal => ?_⟩
  · rw [harena]
    exact ⟨rfl, rfl⟩
  · rw [allocator?_addAllocator] at hal
    split at hal
    · cases hk : s.allocator? k with
      | none =>
          rw [hk] at hal
          cases hal
          intro q y r e _ hB
          cases hB
      | some al' =>
          rw [hk] at hal
          cases hal
          exact h.unpaired k al' hk
    · exact h.unpaired k al hal

omit hdis hbd in
theorem Tight.getMemBufAllocator {size streamId : Nat} {fromPersistentMem : Bool}
    (h : Tight law s)
    (hres : Pool.getMemBufAllocator dev size fromPersistentMem streamId s = (k, s')) :
    Tight law s' := by
  unfold Pool.getMemBufAllocator at hres
  split at hres
  · cases hres
    exact h
  · cases hres
    exact h.addAllocator _ _

theorem Tight.syncAllStreams {ok : Bool} (h : Tight law s)
    (hres : Pool.syncAllStreams dev s = some (ok, s')) : Tight law s' := by
  refine ⟨h.toPlaced.quiet hdis hbd (syncAllStreams_spec h.inv hres), ?_⟩
  obtain ⟨⟨ok', d⟩, -, hres⟩ := Option.bind_eq_some_iff.mp hres
  cases hres
  exact h.unpaired

omit hdis hbd in
theorem eagerFreeAllocators_unpaired {keys : List (Lex (Bool × Nat))} {n m : Nat}
    {sizes : Nat × Nat} (h : Inv law 0 s) (hu : AllUnpaired s) (hn : n < sizeBound)
    (hres : eagerFreeAllocators dev keys n m s = some (sizes, s')) : AllUnpaired s' := by
  induction keys generalizing s n m with
  | nil =>
      cases hres
      exact hu
  | cons key keys ih =>
      simp only [eagerFreeAllocators] at hres
      cases hal : s.streamIdAllocators.find? key with
      | none =>
          rw [hal] at hres
          exact ih h hu hn hres
      | some al =>
          rw [hal] at hres
          obtain ⟨⟨⟨n₁, m₁⟩, c⟩, hfree, hres⟩ := Option.bind_eq_some_iff.mp hres
          have hone : eagerFreeAllocators dev [key] n m s = some ((addSize n n₁, addSize m m₁),
              s.putCtx (.stream (ofLex key).1 (ofLex key).2) c) := by
            simp only [eagerFreeAllocators, hal, hfree]
            rfl
          obtain ⟨-, -, hinv, -, -⟩ := eagerFreeAllocators_spec h hn hone
          have hal : s.allocator? (.stream (ofLex key).1 (ofLex key).2) = some al := hal
          obtain ⟨lay, hlay⟩ := h.alloc
          obtain ⟨lay', -, -, hext, -, -⟩ :=
            MemBufAllocator.freeIdleMemsByEagerFree_spec (hlay _ al hal) hfree
          refine ih hinv (hu.putCtx h hlay hal hext ?_) (addSize_lt _ _) hres
          exact MemBufAllocator.freeIdleMemsByEagerFree_unpaired (hlay _ al hal) (hu _ al hal) hfree

theorem Tight.freeIdleMemsByEagerFree {sizes : Nat × Nat} (h : Tight law s)
    (hres : Pool.freeIdleMemsByEagerFree dev s = some (sizes, s')) : Tight law s' := by
  refine ⟨h.toPlaced.quiet hdis hbd (freeIdleMemsByEagerFree_spec h.inv hres), ?_⟩
  obtain ⟨⟨⟨total, real⟩, s₁⟩, hsw, hres⟩ := Option.bind_eq_some_iff.mp hres
  cases hres
  have hu : AllUnpaired s₁ := eagerFreeAllocators_unpaired
    (s := { s with eagerFreeCount := addSize s.eagerFreeCount 1 }) (n := 0)
    ⟨h.inv.base, h.inv.alloc, h.inv.flag⟩ h.unpaired (by decide) hsw
  exact hu

theorem Tight.defragMemory (h : Tight law s) (hres : Pool.defragMemory dev s = some s') :
    Tight law s' := by
  unfold Pool.defragMemory at hres
  split at hres
  · cases hres
    exact h
  · split at hres
    · cases hres
      exact h
    · split at hres
      · cases hres
        exact h
      · obtain ⟨⟨ok, s₁⟩, hsync, hres⟩ := Option.bind_eq_some_iff.mp hres
        have h₁ := h.syncAllStreams hdis hbd hsync
        dsimp only at hres
        split at hres
        · cases hres
          exact h₁
        · obtain ⟨⟨_, s₂⟩, hfree, hres⟩ := Option.bind_eq_some_iff.mp hres
          cases hres
          have h₂ := h₁.freeIdleMemsByEagerFree hdis hbd hfree
          exact h₂.congr ⟨h₂.inv.base, h₂.inv.alloc, h₂.inv.flag⟩ rfl rfl fun _ => rfl

theorem Tight.mallocFromAnother {size streamId : Nat} {fromPersistentMem : Bool}
    {k' : AllocatorKey} {r : Option Nat} (h : Tight law s)
    (hres : Pool.mallocFromAnother dev size fromPersistentMem streamId k s =
      some ((r, k'), s')) : Tight law s' := by
  unfold Pool.mallocFromAnother at hres
  split at hres
  · generalize hget : Pool.getMemBufAllocator dev size (!fromPersistentMem) streamId s = ks at hres
    obtain ⟨k₁, s₁⟩ := ks
    obtain ⟨⟨r', s₂⟩, hm, hres⟩ := Option.bind_eq_some_iff.mp hres
    cases hres
    exact (h.getMemBufAllocator hget).malloc hdis hbd hm
  · cases hres
    exact h

theorem Tight.expand {size : Nat} {r : Attempt} (h : Tight law s)
    (hres : (do
      let (p, s) ← Pool.mallocExpandBlock dev k size s
      match p with
      | some p => some (Attempt.found p k, s)
      | none => some (Attempt.exhausted k, s)) = some (r, s')) : Tight law s' := by
  obtain ⟨⟨p, s₁⟩, hm, hres⟩ := Option.bind_eq_some_iff.mp hres
  have h₁ := h.mallocExpandBlock hdis hbd hm
  cases p with
  | none =>
      cases hres
      exact h₁
  | some p =>
      cases hres
      exact h₁

theorem Tight.mallocAfterEagerFree {size : Nat} {r : Attempt} (h : Tight law s)
    (hres : Pool.mallocAfterEagerFree dev size k s = some (r, s')) : Tight law s' := by
  unfold Pool.mallocAfterEagerFree at hres
  dsimp only at hres
  split at hres
  · obtain ⟨⟨ok, s₁⟩, hsync, hres⟩ := Option.bind_eq_some_iff.mp hres
    have h₁ := h.syncAllStreams hdis hbd hsync
    dsimp only at hres
    split at hres
    · cases hres
      exact h₁
    · obtain ⟨⟨_, s₂⟩, hfree, hres⟩ := Option.bind_eq_some_iff.mp hres
      have h₂ := h₁.freeIdleMemsByEagerFree hdis hbd hfree
      obtain ⟨⟨p, s₃⟩, hm, hres⟩ := Option.bind_eq_some_iff.mp hres
      have h₃ := h₂.malloc hdis hbd hm
      cases p with
      | some p =>
          cases hres
          exact h₃
      | none => exact h₃.expand hdis hbd hres
  · exact h.expand hdis hbd hres

theorem Tight.findMemBuf {size streamId : Nat} {fromPersistentMem : Bool} {r : Attempt}
    (h : Tight law s)
    (hres : Pool.findMemBuf dev size fromPersistentMem streamId s = some (r, s')) :
    Tight law s' := by
  unfold Pool.findMemBuf at hres
  generalize hget : Pool.getMemBufAllocator dev size fromPersistentMem streamId s = ks at hres
  obtain ⟨k, s₁⟩ := ks
  have h₁ := h.getMemBufAllocator hget
  obtain ⟨⟨p, s₂⟩, hm, hres⟩ := Option.bind_eq_some_iff.mp hres
  have h₂ := h₁.malloc hdis hbd hm
  cases p with
  | some p =>
      cases hres
      exact h₂
  | none =>
      obtain ⟨⟨⟨p, k'⟩, s₃⟩, hother, hres⟩ := Option.bind_eq_some_iff.mp hres
      have h₃ := h₂.mallocFromAnother hdis hbd hother
      cases p with
      | some p =>
          cases hres
          exact h₃
      | none => exact h₃.mallocAfterEagerFree hdis hbd hres

end Search

/-! ## Free and events -/

theorem Tight.doFreeTensorMem (h : Tight law s) (addr : Nat) :
    Tight law (Pool.doFreeTensorMem addr s).2 := by
  have hd := doFreeTensorMem_spec h.inv addr
  have hframe := hd.step.frame h.inv.base
  refine ⟨h.toPlaced.congr hd.inv ⟨hframe.blocks, hframe.owns⟩, ?_⟩
  unfold Pool.doFreeTensorMem
  cases hl : s.addrMemBufAllocators.lookup addr with
  | none => exact h.unpaired
  | some v =>
      obtain ⟨p, k⟩ := v
      obtain ⟨al, b, hal, hb, -, hst, hB⟩ := h.inv.lookup hl
      have hb' : (s.ctx al).bufs.get p = some b := hb
      obtain ⟨lay, hlay⟩ := h.inv.alloc
      have hu := h.unpaired k al hal
      simp only [hal, hb]
      cases hev : b.isEventNotUsed with
      | false =>
          simp only [MemBufAllocator.free, hb', hev, Bool.not_false, if_true,
            Bool.false_eq_true, if_false]
          have hext : Ext (s.ctx al) { s.ctx al with
              bufs := s.bufs.modify p fun x => { x with status := .usedByEvent } } lay lay :=
            { own := fun _ hC => hC
              fresh := fun _ hC => .inl hC
              outside := Outside.modify hb hB hB
              blocksOut := fun _ _ => rfl
              layOut := fun _ _ => rfl
              next := Nat.le_refl _
              eager := rfl }
          exact h.unpaired.putCtx h.inv hlay hal hext
            ((hu.detach p).hold hb Arena.not_isFree_usedByEvent)
      | true =>
          simp only [MemBufAllocator.free, hb', hev, Bool.not_true, Bool.false_eq_true,
            if_false, if_true]
          have hdet := (hlay k al hal).detach hb hst
          obtain ⟨lay', hco⟩ :=
            MemBufAllocator.coalesce_spec (c := s.ctx al) .idle hdet hb hB hev (.inl rfl)
          have hfin := MemBufAllocator.coalesce_unpaired (c := s.ctx al) .idle hdet (hu.detach p) hb
            hB hev (.inl rfl)
          have hown : (MemBufAllocator.coalesce p .idle (s.ctx al)).alloc.memBlocks =
              (s.ctx al).alloc.memBlocks := hco.own
          rw [← hown] at hfin
          have hput := h.unpaired.putCtx h.inv hlay hal hco.ext hfin
          exact hput

theorem Tight.setEvents (h : Tight law s) (hb : s.bufs.get p = some b) {e : EventBase}
    (he : b.status.isFree → e = b.toEventBase) : Tight law (s.setEvents p e) := by
  refine ⟨h.toPlaced.congr (h.inv.setEvents hb he) ?_, fun k al hal => ?_⟩
  · rw [arena_setEvents]
    exact ⟨rfl, rfl⟩
  · exact (h.unpaired k al hal).rewrite p (g := fun d => { d with toEventBase := e })
      (fun _ => rfl) (fun _ => rfl) (fun _ => rfl) fun _ => rfl

theorem Tight.erasePair (h : Tight law s) (key : Nat × Nat) (p : Nat) :
    Tight law (Pool.erasePair key p s) := by
  have hinv := h.inv.erasePair key p
  unfold Pool.erasePair at hinv ⊢
  split
  · exact h
  · rename_i hl
    simp only [hl] at hinv
    exact h.congr hinv rfl rfl fun _ => rfl

theorem Tight.foldl {α : Type} {f : Pool δ → α → Pool δ}
    (hf : ∀ s x, Tight law s → Tight law (f s x)) (xs : List α) :
    ∀ s, Tight law s → Tight law (xs.foldl f s) := by
  induction xs with
  | nil => exact fun s h => h
  | cons x xs ih => exact fun s h => ih _ (hf s x h)

theorem Tight.eraseAllPairs (h : Tight law s) (p : Nat) : Tight law (Pool.eraseAllPairs p s) :=
  Tight.foldl (fun _ key h => h.erasePair key p) _ s h

theorem Tight.recordOne (h : Tight law s) (taskId : Int) (user : Nat) (event : DeviceEvent)
    (ma : Nat × Nat) : Tight law (Pool.recordOne dev taskId user event s ma) := by
  have hinv : Inv law 0 (Pool.recordOne dev taskId user event s ma) :=
    (recordOne_spec h.inv taskId user event ma).inv
  unfold Pool.recordOne at hinv ⊢
  cases hl : s.addrMemBufAllocators.lookup ma.2 with
  | none => exact h
  | some v =>
      obtain ⟨p, k⟩ := v
      obtain ⟨al, b, hal, hb, -, hst, -⟩ := h.inv.lookup hl
      simp only [hl, hb] at hinv ⊢
      have hadd : Tight law (if b.isEventNotUsed then s.addUsedByEvent b.size else s) := by
        split
        · exact h.congr (h.inv.memStat _) rfl rfl fun _ => rfl
        · exact h
      have hget : (if b.isEventNotUsed then s.addUsedByEvent b.size else s).bufs.get p =
          some b := by
        split <;> exact hb
      have hset := hadd.setEvents (e := b.toEventBase.recordEvent taskId user event) hget
        fun hf => absurd hf hst
      exact hset.congr hinv rfl rfl fun _ => rfl

theorem Tight.waitOne (h : Tight law s) (taskId : Int) (key : Nat × Nat) (p : Nat) :
    Tight law (Pool.waitOne taskId key s p) := by
  unfold Pool.waitOne
  cases hb : s.bufs.get p with
  | none => exact h
  | some b =>
      dsimp only
      generalize he : (b.toEventBase.waitEvent (toUInt32 taskId) key.1).2 = e
      have hset : Tight law (s.setEvents p e) := h.setEvents hb fun hf => by
        rw [← he]
        exact EventBase.waitEvent_of_isEventNotUsed
          (h.inv.base.quiet p b.data (dataOf_get hb) (Nat.zero_le _) hf) _ _
      split
      · have hsub : Tight law ((Pool.erasePair key p (s.setEvents p e)).subUsedByEvent b.size) :=
          (hset.erasePair key p).congr ((hset.erasePair key p).inv.memStat _) rfl rfl fun _ => rfl
        split
        · exact (hsub.eraseAllPairs p).doFreeTensorMem b.addr
        · exact hsub
      · exact hset

theorem Tight.waitPair (h : Tight law s) (taskId : Int) (key : Nat × Nat) :
    Tight law (Pool.waitPair taskId s key) :=
  Tight.foldl (fun _ p h => h.waitOne taskId key p) _ s h

theorem Tight.waitEvent (h : Tight law s) (taskId : Int) (user mem : Nat) :
    Tight law (Pool.waitEvent taskId user mem s).2 := by
  unfold Pool.waitEvent
  split
  · exact h
  · exact h.waitPair taskId _

theorem Tight.syncOne (h : Tight law s) (p : Nat) : Tight law (Pool.syncOne s p) := by
  unfold Pool.syncOne
  cases hb : s.bufs.get p with
  | none => exact h
  | some b =>
      dsimp only
      have hset : Tight law (s.setEvents p b.toEventBase.syncAllEvents.2) :=
        h.setEvents hb fun hf => by
          have hquiet : b.toEventBase.isEventNotUsed = true :=
            h.inv.base.quiet p b.data (dataOf_get hb) (Nat.zero_le _) hf
          rw [EventBase.syncAllEvents_of_isEventNotUsed hquiet]
      split
      · exact hset.doFreeTensorMem b.addr
      · exact hset

theorem Tight.doSyncAllEvents (h : Tight law s) : Tight law (Pool.doSyncAllEvents dev s).2 := by
  have hinv : Inv law 0 (Pool.doSyncAllEvents dev s).2 := (doSyncAllEvents_spec h.inv).inv
  unfold Pool.doSyncAllEvents at hinv ⊢
  split
  · exact h
  · rename_i hne
    rw [if_neg hne] at hinv
    have hall : Tight law ((carryEventMemBufs dev s).foldl Pool.syncOne s) :=
      Tight.foldl (fun _ p h => h.syncOne p) _ s h
    exact hall.congr hinv rfl rfl fun _ => rfl

/-! ## Part free -/

theorem CutStep.tight (h : Tight law s) (hc : CutStep law s s') : Tight law s' := by
  cases hc with
  | @mk p n k b rest hs hl hb h0 hn hr =>
      obtain ⟨-, hplaced⟩ := hs.cutAt hl hb h0 hn hr
      refine ⟨hplaced, ?_⟩
      obtain ⟨al, b', hal, hb', -, hst, hB⟩ := h.inv.lookup hl
      rw [hb] at hb'
      cases hb'
      obtain ⟨lay, hlay⟩ := h.inv.alloc
      have hinv := hlay k al hal
      obtain ⟨hnp, hnq⟩ := MemBufAllocator.next_ne_of_inv (c := s.ctx al) hinv hb hB
      have hspl := linkMemBuf_spliced rest n hb hnp hnq hr.next
      have hfresh : s.addrMemBufAllocators.lookup rest.addr = none := by
        rw [hr.addr]
        exact hs.fresh_inside hb (by omega) (by omega)
      have hsets : ∀ st ps, st.isFree → SetOk (dataOf s.bufs) al.memBlocks st ps none →
          SetOk (dataOf (Pool.cutAt p n rest k s).bufs) al.memBlocks st ps none := by
        intro st ps hfree hset
        rw [cutAt_eq hb hfresh]
        dsimp only
        rw [hspl.data hb]
        refine SetOk.cutUsed hset (dataOf_get hb) (fun heq => hst ?_) fun heq => hr.inUse ?_
        · have heq : b.status = st := heq
          rw [heq]
          exact hfree
        · have heq : rest.status = st := heq
          rw [heq]
          exact hfree
      rw [cutAt_eq hb hfresh] at hsets ⊢
      have hcut := hspl.unpaired hinv (h.unpaired k al hal) hb hB (.inr hr.inUse)
      obtain ⟨hout, -⟩ := hinv.cut none hspl hb hB hr.memBlock hn.le hr.addr hr.size hr.quiet
        (Eq.refl al.memBlocks) (hsets _ _ (.inl rfl) hinv.free) (hsets _ _ (.inr rfl) hinv.eager)
      intro k' al' hal'
      by_cases hk : k' = k
      · subst hk
        have hal' : s.allocator? k' = some al' := hal'
        rw [hal] at hal'
        cases hal'
        exact hcut.attachUsed hspl.left hst
      · refine (h.unpaired k' al' hal').frame (hlay k' al' hal') hout fun C hC hC' => hk ?_
        exact h.inv.base.excl k' k C ((owns_iff hal' C).mpr hC) ((owns_iff hal C).mpr hC')

theorem Tight.freePart {freeAddrs keepAddrs keepAddrSizes : List Nat} (h : Tight law s)
    (hfit : KeepsFit s freeAddrs (keepAddrs.zip keepAddrSizes)) :
    Tight law (freePartTensorMems freeAddrs keepAddrs keepAddrSizes s) := by
  obtain ⟨st, hpart, -⟩ := h.toPlaced.partFreed hfit
  have hkept : Tight law st.pool := by
    have hpath := hpart.carving.cuts.path
    generalize st.pool = s₁ at hpath
    induction hpath with
    | refl => exact h
    | tail _ hcut ih => exact hcut.tight ih
  rw [hpart.result]
  refine Tight.foldl (fun s e hs => ?_) _ _ hkept
  unfold freeCandidate
  split
  · exact hs
  · exact hs.doFreeTensorMem _

/-! ## Runs -/

theorem Tight.allocTensorMem {size streamId addr : Nat} {fromPersistentMem : Bool}
    (hdis : law.Disjoint) (hbd : dev.Bounded) (h : Tight law s)
    (hres : Pool.allocTensorMem dev size fromPersistentMem streamId s = some (addr, s')) :
    Tight law s' := by
  have hinv := (allocTensorMem_spec h.inv (.inl rfl) hres).inv
  have henter : ∀ (a p : Nat) (k : AllocatorKey) {t : Pool δ}, Tight law t →
      Inv law 0 (emplaceAddr a (p, k) (countUsed p t)) →
      Tight law (emplaceAddr a (p, k) (countUsed p t)) := by
    intro a p k t ht hinv
    refine ht.congr hinv ?_ ?_ fun k' => ?_ <;> unfold emplaceAddr countUsed
    · split <;> split <;> rfl
    · split <;> split <;> rfl
    · split <;> split <;> rfl
  obtain ⟨⟨r, s₁⟩, hmem, hres⟩ := Option.bind_eq_some_iff.mp hres
  obtain ⟨⟨a, s₂⟩, hfind, hmem⟩ := Option.bind_eq_some_iff.mp hmem
  have h₂ := h.findMemBuf hdis hbd hfind
  cases a with
  | found p k =>
      cases hmem
      cases hres
      exact henter _ p k h₂ hinv
  | syncFailed =>
      cases hmem
      cases hres
      exact h₂
  | exhausted k =>
      obtain ⟨⟨p, s₃⟩, hm, hmem⟩ := Option.bind_eq_some_iff.mp hmem
      have h₃ := h₂.doSyncAllEvents.malloc hdis hbd hm
      cases p with
      | none =>
          cases hmem
          cases hres
          exact h₃
      | some p =>
          cases hmem
          cases hres
          exact henter _ p k h₃ hinv

/-- Every `Call` is allowed, but the ranges that `FreePartTensorMems` keeps have to fit. -/
def fittingCall (s : Pool δ) : Call → Prop
  | .freePart freeAddrs keepAddrs keepAddrSizes =>
      KeepsFit s freeAddrs (keepAddrs.zip keepAddrSizes)
  | _ => True

theorem Tight.step {c : Call} (hdis : law.Disjoint) (hbd : dev.Bounded) (h : Tight law s)
    (hc : fittingCall s c) (hs : Step dev s c s') : Tight law s' := by
  cases c with
  | alloc size b n addr => exact h.allocTensorMem hdis hbd hs
  | free addr =>
      cases hs
      exact h.doFreeTensorMem addr
  | freePart freeAddrs keepAddrs keepAddrSizes =>
      cases hs
      exact h.freePart hc
  | defrag => exact h.defragMemory hdis hbd hs
  | record taskId user mas event =>
      cases hs
      exact Tight.foldl (fun _ ma h => h.recordOne taskId user event ma) _ s h
  | wait taskId user mem =>
      cases hs
      exact h.waitEvent taskId user mem
  | waitMem taskId mem order =>
      obtain ⟨-, rfl⟩ := hs
      exact Tight.foldl (fun _ key h => h.waitPair taskId key) _ s h
  | syncAllEvents =>
      cases hs
      exact h.doSyncAllEvents

theorem Tight.init (law : DeviceLaw dev) (enableVmm enableTiny : Bool) (d : δ) :
    Tight law (Pool.init enableVmm enableTiny d) :=
  ⟨Placed.init law enableVmm enableTiny d, fun _ _ _ _ _ _ _ hq => (by cases hq)⟩

/-- The blocks and sets of an allocator as its users see them. -/
structure InOrder (s : Pool δ) (al : MemBufAllocator) : Prop where
  chains : ∀ B ∈ al.memBlocks, ∃ ps, Chained (s.ctx al) B ps ∧ ∀ q r x y, Adj ps q r →
    s.bufs.get q = some x → s.bufs.get r = some y →
    ¬ (x.status = .idle ∧ y.status = .idle) ∧ ¬ (x.status = .eagerFree ∧ y.status = .eagerFree)
  free : ∀ p b, s.bufs.get p = some b → 0 < b.size →
    (p ∈ al.freeMemBufs ↔ b.memBlock ∈ al.memBlocks ∧ b.status = .idle)
  eager : ∀ p b, s.bufs.get p = some b → 0 < b.size →
    (p ∈ al.eagerFreeMemBufs ↔ b.memBlock ∈ al.memBlocks ∧ b.status = .eagerFree)
  freeSorted : OrdSet.Sorted (memBufKey s.bufs) al.freeMemBufs
  eagerSorted : OrdSet.Sorted (memBufKey s.bufs) al.eagerFreeMemBufs

theorem mem_of_setOk {own ps : List Nat} {st : MemBufStatus}
    (h : SetOk (dataOf s.bufs) own st ps none) (hb : s.bufs.get p = some b) (hpos : 0 < b.size) :
    p ∈ ps ↔ b.memBlock ∈ own ∧ b.status = st := by
  constructor
  · intro hp
    obtain ⟨-, d, hd, hB, hst⟩ := h.sound p hp
    rw [dataOf_get hb] at hd
    cases hd
    exact ⟨hB, hst⟩
  · rintro ⟨hB, hst⟩
    exact h.complete p b.data (dataOf_get hb) hB hst hpos (by simp)

theorem Tight.inOrder (h : Tight law s) (hal : s.allocator? k = some al) : InOrder s al := by
  obtain ⟨lay, hlay⟩ := h.inv.alloc
  have hinv := hlay k al hal
  refine ⟨fun B hB => ⟨lay B, AllocInv.chained (c := s.ctx al) hinv hB, ?_⟩,
    fun p b hb hpos => mem_of_setOk hinv.free hb hpos,
    fun p b hb hpos => mem_of_setOk hinv.eager hb hpos, ?_, ?_⟩
  · intro q r x y hadj hx hy
    obtain ⟨blk, -, hseg⟩ := hinv.chain B hB
    obtain ⟨x', y', hx', hy', hnext, -⟩ := hseg.adj hadj
    rw [hx] at hx'
    cases hx'
    obtain ⟨x', hx', hxB⟩ := hinv.memBlock_of_mem hB hadj.mem.1
    rw [hx] at hx'
    cases hx'
    have htw := h.unpaired k al hal q x r y.data hx (by rw [hxB]; exact hB) hnext (dataOf_get hy)
      (by simp) (by simp)
    constructor
    · rintro ⟨hxst, hyst⟩
      exact htw ⟨hxst.trans hyst.symm, .inl hxst⟩
    · rintro ⟨hxst, hyst⟩
      exact htw ⟨hxst.trans hyst.symm, .inr hxst⟩
  · rw [memBufKey_eq]
    exact hinv.free.sorted
  · rw [memBufKey_eq]
    exact hinv.eager.sorted

/-- In every run of fitting calls, those with events included, the buffers of each block form a
linked chain that tiles the block, no two neighbours in it are both idle or both eagerly free, the
two sets of an allocator are sorted and hold the non-empty free buffers of its blocks and no others,
and every buffer is in a block of one allocator. A continuous allocation is not one of these calls:
what its buffer has in excess of the sizes is a hole in the chain. -/
theorem chains_in_order (law : DeviceLaw dev) (hdis : law.Disjoint) (hbd : dev.Bounded)
    {enableVmm enableTiny : Bool} {d : δ} {calls : List Call}
    (hrun : Run (fun s c s' => Step dev s c s' ∧ fittingCall s c)
      (Pool.init enableVmm enableTiny d) calls s) :
    (∀ k al, s.allocator? k = some al → InOrder s al) ∧
      ∀ p b, s.bufs.get p = some b →
        ∃ k, ∀ k' al, s.allocator? k' = some al → (b.memBlock ∈ al.memBlocks ↔ k' = k) := by
  have hinv : Tight law s := hrun.state_inv (I := Tight law)
    (Tight.init law enableVmm enableTiny d) fun s c s' h hs => h.step hdis hbd hs.2 hs.1
  refine ⟨fun k al hal => hinv.inOrder hal, fun p b hb => ?_⟩
  obtain ⟨k, hk⟩ := hinv.inv.base.owned p b.data (dataOf_get hb) (Nat.zero_le _)
  refine ⟨k, fun k' al hal => ⟨fun hB => ?_, ?_⟩⟩
  · exact hinv.inv.base.excl k' k b.memBlock ((owns_iff hal _).mpr hB) hk
  · rintro rfl
    exact (owns_iff hal _).mp hk

/-- A buffer with an event is freed and then the events are synced; of another one 200 bytes are
kept. -/
theorem chains_in_order_mixed :
    ∃ calls s, Run (fun s c s' => Step (linearDevice false false) s c s' ∧ fittingCall s c)
        (Pool.init false false (LinearState.init 0)) calls s ∧ calls.length = 6 ∧
      (∀ k al, s.allocator? k = some al → InOrder s al) ∧
      ∀ p b, s.bufs.get p = some b →
        ∃ k, ∀ k' al, s.allocator? k' = some al → (b.memBlock ∈ al.memBlocks ↔ k' = k) := by
  have hexec : ((execOne (linearDevice false false) (Pool.init false false (LinearState.init 0))
      (.alloc 1000 false 0 512)).bind fun s =>
        (execOne (linearDevice false false) s (.alloc 600 false 0 1536)).bind fun s =>
          (execOne (linearDevice false false) s (.record 3 1 [(0, 1536)] 7)).map fun s =>
            s.arena.sizeAt 512) = some (some 1024) := by
    decide +kernel
  obtain ⟨s₁, h₁, hrest⟩ := Option.bind_eq_some_iff.mp hexec
  obtain ⟨s₂, h₂, hrest⟩ := Option.bind_eq_some_iff.mp hrest
  obtain ⟨s₃, h₃, hsize⟩ := Option.map_eq_some_iff.mp hrest
  have hfit : fittingCall s₃ (.freePart [512] [612] [200]) := by
    have hkeep : ∀ x n, (x, n) ∈ [(612, 200)] → x = 612 ∧ n = 200 := by simp
    refine ⟨fun x n hx => ?_, fun x n y l hx hy hne => ?_, fun x n hx => ?_⟩
    · obtain ⟨-, rfl⟩ := hkeep x n hx
      decide
    · obtain ⟨rfl, rfl⟩ := hkeep x n hx
      obtain ⟨rfl, rfl⟩ := hkeep y l hy
      exact absurd rfl hne
    · obtain ⟨rfl, rfl⟩ := hkeep x n hx
      exact ⟨512, by decide, 1024, hsize, by decide, by decide⟩
  have hrun₀ : Run (fun s c s' => Step (linearDevice false false) s c s' ∧ fittingCall s c)
      (Pool.init false false (LinearState.init 0)) [] _ := .nil
  have hrun₁ := hrun₀.snoc ⟨step_of_execOne h₁, trivial⟩
  have hrun₂ := hrun₁.snoc ⟨step_of_execOne h₂, trivial⟩
  have hrun₃ := hrun₂.snoc ⟨step_of_execOne h₃, trivial⟩
  have hrun₄ := hrun₃.snoc ⟨step_of_execOne (c := .freePart [512] [612] [200]) rfl, hfit⟩
  have hrun₅ := hrun₄.snoc ⟨step_of_execOne (c := .free 1536) rfl, trivial⟩
  have hrun := hrun₅.snoc ⟨step_of_execOne (c := .syncAllEvents) rfl, trivial⟩
  exact ⟨_, _, hrun, rfl, chains_in_order (linearLaw false false)
    (linearLaw_disjoint false false) (linearDevice_bounded false false) hrun⟩

end Pool

end Ccbase.Memory
