import Ccbase.Memory.Cut

/-!
# What every call leaves behind

`Tame` holds in every state of a pool, whatever its clients do: also if they free parts of
buffers they do not have, or split what is not theirs. It says little: the block of every buffer
has been made, and the tiny allocator holds buffers only if it has a block. `Tends` is what it
takes of a method of an allocator, and `Follows` of an operation of the pool.
-/

namespace Ccbase.Memory

open Ccbase.Lib Relation

variable {ε δ : Type} {dev : Device δ}

/-! ## Methods of an allocator -/

/-- The block of every buffer has been made. -/
def BlocksMade (bufs : Heap MemBuf) (blocks : Heap MemBlock) : Prop :=
  bufs.All fun b => b.memBlock < blocks.next

/-- What a method of an allocator does not undo. -/
structure Tends (c c' : Ctx ε) : Prop where
  next : c.blocks.next ≤ c'.blocks.next
  made : BlocksMade c.bufs c.blocks → BlocksMade c'.bufs c'.blocks
  eager : c'.alloc.enableEagerFree = c.alloc.enableEagerFree
  held : c.alloc.memBlocks ≠ [] → c'.alloc.memBlocks ≠ []

namespace Tends

variable {c c' c'' : Ctx ε} {cb : Callbacks ε}

theorem refl (c : Ctx ε) : Tends c c := ⟨Nat.le_refl _, id, rfl, id⟩

theorem trans (h : Tends c c') (h' : Tends c' c'') : Tends c c'' :=
  ⟨Nat.le_trans h.next h'.next, fun hm => h'.made (h.made hm), h'.eager.trans h.eager,
    fun hm => h'.held (h.held hm)⟩

/-- The sets, the buffers and the environment change, the blocks do not. -/
theorem of_blocks (hblocks : c'.blocks = c.blocks)
    (hmade : BlocksMade c.bufs c.blocks → BlocksMade c'.bufs c.blocks)
    (heager : c'.alloc.enableEagerFree = c.alloc.enableEagerFree)
    (hheld : c'.alloc.memBlocks = c.alloc.memBlocks) : Tends c c' :=
  ⟨Nat.le_of_eq (congrArg Heap.next hblocks.symm), fun hm => by rw [hblocks]; exact hmade hm,
    heager, fun hm => by rw [hheld]; exact hm⟩

theorem sets (c : Ctx ε) (free eagerFree : List Nat) : Tends c { c with
    alloc := { c.alloc with freeMemBufs := free, eagerFreeMemBufs := eagerFree } } :=
  of_blocks rfl id rfl rfl

theorem absorbed {bufs : Heap MemBuf} {blocks : Heap MemBlock} (hm : BlocksMade bufs blocks)
    (p q : Nat) (b : MemBuf) :
    BlocksMade ((MemBufAllocator.absorbPrev p b bufs).delete q) blocks ∧
      BlocksMade ((MemBufAllocator.absorbNext p b bufs).delete q) blocks := by
  constructor
  · refine Heap.All.delete
      (Heap.All.modify (Heap.All.modify? (Heap.All.modify hm _ ?_) _ ?_) _ ?_) _
    · exact fun _ h => h
    · exact fun _ h => h
    · exact fun _ h => h
  · refine Heap.All.delete
      (Heap.All.modify (Heap.All.modify? (Heap.All.modify hm _ ?_) _ ?_) _ ?_) _
    · exact fun _ h => h
    · exact fun _ h => h
    · exact fun _ h => h

theorem mergePrev (p : Nat) (target : MemBufStatus) (c : Ctx ε) :
    Tends c (MemBufAllocator.mergePrev p target c) := by
  unfold MemBufAllocator.mergePrev
  split
  · exact refl c
  · split
    · exact refl c
    · split
      · exact refl c
      · split
        · exact of_blocks rfl (fun hm => (absorbed hm _ _ _).1) (by simp) (by simp)
        · exact refl c

theorem mergeNext (p : Nat) (target : MemBufStatus) (c : Ctx ε) :
    Tends c (MemBufAllocator.mergeNext p target c) := by
  unfold MemBufAllocator.mergeNext
  split
  · exact refl c
  · split
    · exact refl c
    · split
      · exact refl c
      · split
        · exact of_blocks rfl (fun hm => (absorbed hm _ _ _).2) (by simp) (by simp)
        · exact refl c

theorem coalesce (p : Nat) (target : MemBufStatus) (c : Ctx ε) :
    Tends c (MemBufAllocator.coalesce p target c) := by
  let c₁ : Ctx ε := { c with bufs := c.bufs.modify p fun b => { b with status := target } }
  have h₁ : Tends c c₁ := of_blocks rfl (fun hm => hm.modify _ fun _ h => h) rfl rfl
  have h₂ := (mergePrev p target c₁).trans (mergeNext p target _)
  have h₃ : Tends (MemBufAllocator.mergeNext p target (MemBufAllocator.mergePrev p target c₁))
      (MemBufAllocator.coalesce p target c) :=
    of_blocks rfl id (MemBufAllocator.emplace_enableEagerFree ..)
      (MemBufAllocator.emplace_memBlocks ..)
  exact (h₁.trans h₂).trans h₃

theorem free (p : Nat) (target : MemBufStatus) (c : Ctx ε) :
    Tends c (MemBufAllocator.free p target c).2 := by
  unfold MemBufAllocator.free
  split
  · exact refl c
  · split
    · exact of_blocks rfl (fun hm => hm.modify _ fun _ h => h) rfl rfl
    · exact coalesce p target c

theorem ite_emplace_fields (al : MemBufAllocator) (bufs : Heap MemBuf) (q : Nat) (st : Prop)
    [Decidable st] :
    (if st then al.emplaceFree bufs q else al.emplaceEagerFree bufs q).memBlocks =
        al.memBlocks ∧
      (if st then al.emplaceFree bufs q else al.emplaceEagerFree bufs q).enableEagerFree =
        al.enableEagerFree := by
  split <;> exact ⟨rfl, rfl⟩

theorem splitMemBuf {p size : Nat} {b : MemBuf} (hb : c.bufs.get p = some b) :
    Tends c (MemBufAllocator.splitMemBuf p size b c) := by
  refine of_blocks rfl (fun hm => ?_) (ite_emplace_fields ..).2 (ite_emplace_fields ..).1
  have hnew : BlocksMade (c.bufs.new (MemBufAllocator.remainingBuf b size)) c.blocks :=
    Heap.All.new hm (hm p b hb)
  show Heap.All _ ((MemBufAllocator.linkBehind p b _ c.bufs).modify p _)
  unfold MemBufAllocator.linkBehind
  refine Heap.All.modify (Heap.All.modify (Heap.All.modify ?_ _ ?_) _ ?_) _ ?_
  · split
    · refine Heap.All.modify (Heap.All.modify hnew _ ?_) _ ?_
      · exact fun _ h => h
      · exact fun _ h => h
    · exact hnew
  · exact fun _ h => h
  · exact fun _ h => h
  · exact fun _ h => h

theorem markUsed (p : Nat) (c : Ctx ε) : Tends c (MemBufAllocator.markUsed p c) := by
  have hnext : (MemBufAllocator.markUsed p c).blocks.next = c.blocks.next := by
    unfold MemBufAllocator.markUsed
    dsimp only
    split <;> rfl
  refine ⟨Nat.le_of_eq hnext.symm, fun hm => ?_, rfl, id⟩
  unfold BlocksMade
  rw [hnext]
  exact hm.modify p fun _ h => h

theorem takeMemBuf {p size : Nat} {b : MemBuf} (hb : c.bufs.get p = some b) :
    Tends c (MemBufAllocator.takeMemBuf p size b c) := by
  unfold MemBufAllocator.takeMemBuf
  split
  · exact (splitMemBuf hb).trans (markUsed p _)
  · exact markUsed p c

theorem mapAndSplitMemBuf {p size : Nat} {r : Option Nat}
    (hres : MemBufAllocator.mapAndSplitMemBuf cb p size c = some (r, c')) : Tends c c' := by
  unfold MemBufAllocator.mapAndSplitMemBuf at hres
  split at hres
  · cases hres
    exact refl c
  · rename_i b hb
    split at hres
    · obtain ⟨⟨n, env⟩, -, hres⟩ := Option.bind_eq_some_iff.mp hres
      dsimp only at hres
      split at hres
      · cases hres
        exact of_blocks rfl id rfl rfl
      · cases hres
        have henv : Tends c { c with env } := of_blocks rfl id rfl rfl
        exact henv.trans (takeMemBuf hb)
    · cases hres
      exact takeMemBuf hb

/-- Behind an expansion that finds a block the allocator has one. -/
theorem mallocExpandBlock {size : Nat} {r : Option Nat}
    (hres : MemBufAllocator.mallocExpandBlock cb size c = some (r, c')) :
    Tends c c' ∧ (c'.alloc.memBlocks = [] → r = none ∧ c'.alloc = c.alloc) := by
  obtain ⟨⟨B, c₁⟩, hexp, hres⟩ := Option.bind_eq_some_iff.mp hres
  obtain ⟨⟨blk, env⟩, -, hexp⟩ := Option.bind_eq_some_iff.mp hexp
  cases blk with
  | none =>
      cases hexp
      cases hres
      exact ⟨of_blocks rfl id rfl rfl, fun _ => ⟨rfl, rfl⟩⟩
  | some blk =>
      cases hexp
      have hget : (c.blocks.new blk).get c.blocks.next = some blk := Heap.get_new_self ..
      have hnew : Tends c { c with
          env
          blocks := c.blocks.new blk
          alloc := { c.alloc with memBlocks := c.alloc.memBlocks ++ [c.blocks.next] }
          bufs := c.bufs.new
            (MemBufAllocator.blockBuf blk c.blocks.next c.alloc.enableEagerFree) } := by
        refine ⟨Nat.le_succ _, fun hm => Heap.All.new ?_ (Nat.lt_succ_self _), rfl, by simp⟩
        exact fun p x hp => Nat.lt_succ_of_lt (hm p x hp)
      have hheld : c.alloc.memBlocks ++ [c.blocks.next] ≠ [] := by simp
      simp only [hget] at hres
      split at hres
      · cases hres
        refine ⟨hnew.trans (of_blocks rfl id (ite_emplace_fields _ _ _ _).2
          (ite_emplace_fields _ _ _ _).1), fun hnil => ?_⟩
        rw [(ite_emplace_fields ..).1] at hnil
        exact absurd hnil hheld
      · have hmap := mapAndSplitMemBuf hres
        exact ⟨hnew.trans hmap, fun hnil => absurd hnil (hmap.held hheld)⟩

theorem malloc {size : Nat} {r : Option Nat}
    (hres : MemBufAllocator.malloc cb size c = some (r, c')) :
    Tends c c' ∧ (c'.alloc.memBlocks = [] → r = none ∧ c'.alloc = c.alloc) := by
  unfold MemBufAllocator.malloc at hres
  split at hres
  · exact mallocExpandBlock hres
  · rename_i hne
    have hne : c.alloc.memBlocks ≠ [] := fun heq => hne (by rw [heq]; rfl)
    suffices h : Tends c c' from ⟨h, fun hnil => absurd hnil (h.held hne)⟩
    split at hres
    · exact (sets c _ _).trans (mapAndSplitMemBuf hres)
    · split at hres
      · exact (sets c _ _).trans (mapAndSplitMemBuf hres)
      · cases hres
        exact refl c

theorem eagerFreeAll (ps : List Nat) (n : Nat) (c : Ctx ε) :
    Tends c (MemBufAllocator.eagerFreeAll ps n c).2 := by
  induction ps generalizing n c with
  | nil => exact refl c
  | cons p ps ih => exact (free p .eagerFree c).trans (ih _ _)

/-- The device is told about the eagerly free buffers, and that is all. -/
theorem memEagerFreeAll {ps : List Nat} {n m : Nat}
    (hres : MemBufAllocator.memEagerFreeAll cb ps n c = some (m, c')) : Tends c c' := by
  induction ps generalizing n c with
  | nil =>
      cases hres
      exact refl _
  | cons p ps ih =>
      simp only [MemBufAllocator.memEagerFreeAll] at hres
      split at hres
      · exact ih hres
      · obtain ⟨⟨n', env⟩, -, hres⟩ := Option.bind_eq_some_iff.mp hres
        have henv : Tends c { c with env } := of_blocks rfl id rfl rfl
        exact henv.trans (ih hres)

theorem freeIdleMemsByEagerFree {sizes : Nat × Nat}
    (hres : MemBufAllocator.freeIdleMemsByEagerFree cb c = some (sizes, c')) : Tends c c' := by
  obtain ⟨⟨n, c₂⟩, hfree, hres⟩ := Option.bind_eq_some_iff.mp hres
  cases hres
  exact ((eagerFreeAll _ _ c).trans (sets _ _ _)).trans (memEagerFreeAll hfree)

end Tends

namespace Pool

variable {s s' : Pool δ} {k : AllocatorKey} {al : MemBufAllocator}

/-! ## The tiny allocator -/

/-- The tiny allocator has a block. -/
def TinyHeld (s : Pool δ) : Prop := ∃ al, s.tinyAllocator = some al ∧ al.memBlocks ≠ []

/-- What holds in every state, whatever the clients do. -/
structure Tame (s : Pool δ) : Prop where
  made : BlocksMade s.bufs s.blocks
  eager : ∀ al, s.tinyAllocator = some al → al.enableEagerFree = false
  bare : ∀ al, s.tinyAllocator = some al → al.memBlocks = [] →
    al.freeMemBufs = [] ∧ al.eagerFreeMemBufs = []
  keys : ∀ a p, s.addrMemBufAllocators.lookup a = some (p, .tiny) → TinyHeld s

/-- An operation that leaves the tiny allocator its blocks. -/
structure Follows (s s' : Pool δ) : Prop where
  tame : Tame s'
  held : TinyHeld s → TinyHeld s'

theorem Follows.refl (h : Tame s) : Follows s s := ⟨h, id⟩

theorem Follows.trans {s'' : Pool δ} (h : Follows s s') (h' : Follows s' s'') : Follows s s'' :=
  ⟨h'.tame, fun ht => h'.held (h.held ht)⟩

/-- The tiny allocator is not concerned. -/
theorem Tame.same (h : Tame s) (htiny : s'.tinyAllocator = s.tinyAllocator)
    (hmade : BlocksMade s'.bufs s'.blocks)
    (hkeys : ∀ a p, s'.addrMemBufAllocators.lookup a = some (p, .tiny) → TinyHeld s) :
    Follows s s' := by
  have hheld : TinyHeld s → TinyHeld s' := by
    unfold TinyHeld
    rw [htiny]
    exact id
  refine ⟨⟨hmade, ?_, ?_, fun a p hl => hheld (hkeys a p hl)⟩, hheld⟩
  · rw [htiny]
    exact h.eager
  · rw [htiny]
    exact h.bare

theorem putCtx_addrs (s : Pool δ) (k : AllocatorKey) (c : Ctx (Env δ)) :
    (s.putCtx k c).addrMemBufAllocators = s.addrMemBufAllocators := by
  cases k <;> rfl

theorem Tame.putCtx {c : Ctx (Env δ)} (h : Tame s) (hal : s.allocator? k = some al)
    (ht : Tends (s.ctx al) c)
    (hbare : k = .tiny → c.alloc.memBlocks = [] →
      c.alloc.freeMemBufs = [] ∧ c.alloc.eagerFreeMemBufs = []) : Follows s (s.putCtx k c) := by
  have hmade : BlocksMade c.bufs c.blocks := ht.made h.made
  cases k with
  | stream b n =>
      exact h.same rfl hmade h.keys
  | tiny =>
      have htiny : (s.putCtx .tiny c).tinyAllocator = some c.alloc := by
        have hal : s.tinyAllocator = some al := hal
        show s.tinyAllocator.map _ = _
        rw [hal]
        rfl
      have hheld : TinyHeld s → TinyHeld (s.putCtx .tiny c) := by
        rintro ⟨al', hal', hne⟩
        have hal' : s.allocator? .tiny = some al' := hal'
        rw [hal] at hal'
        cases hal'
        exact ⟨_, htiny, ht.held hne⟩
      refine ⟨⟨hmade, fun al' hal' => ?_, fun al' hal' hnil => ?_, ?_⟩, hheld⟩
      · rw [htiny] at hal'
        cases hal'
        exact ht.eager.trans (h.eager al hal)
      · rw [htiny] at hal'
        cases hal'
        exact hbare rfl hnil
      · rw [putCtx_addrs]
        exact fun a p hl => hheld (h.keys a p hl)

/-- A search by one allocator. -/
theorem Tame.searched {r : Option Nat} {c : Ctx (Env δ)} (h : Tame s)
    (hal : s.allocator? k = some al) (ht : Tends (s.ctx al) c)
    (hnil : c.alloc.memBlocks = [] → r = none ∧ c.alloc = al) :
    Follows s (s.putCtx k c) ∧ (r ≠ none → k = .tiny → TinyHeld (s.putCtx k c)) := by
  refine ⟨h.putCtx hal ht fun hk hc => ?_, fun hne hk => ?_⟩
  · subst hk
    have heq := (hnil hc).2
    rw [heq] at hc ⊢
    exact h.bare al hal hc
  · subst hk
    have hal : s.tinyAllocator = some al := hal
    refine ⟨c.alloc, ?_, fun hc => hne (hnil hc).1⟩
    show s.tinyAllocator.map _ = _
    rw [hal]
    rfl

theorem Tame.malloc {size : Nat} {r : Option Nat} (h : Tame s)
    (hres : malloc dev k size s = some (r, s')) :
    Follows s s' ∧ (r ≠ none → k = .tiny → TinyHeld s') := by
  unfold Pool.malloc at hres
  split at hres
  · cases hres
    exact ⟨.refl h, fun hne => absurd rfl hne⟩
  · rename_i al hal
    obtain ⟨⟨r', c⟩, hm, hres⟩ := Option.bind_eq_some_iff.mp hres
    cases hres
    obtain ⟨ht, hnil⟩ := Tends.malloc hm
    exact h.searched hal ht hnil

theorem Tame.mallocExpandBlock {size : Nat} {r : Option Nat} (h : Tame s)
    (hres : mallocExpandBlock dev k size s = some (r, s')) :
    Follows s s' ∧ (r ≠ none → k = .tiny → TinyHeld s') := by
  unfold Pool.mallocExpandBlock at hres
  split at hres
  · cases hres
    exact ⟨.refl h, fun hne => absurd rfl hne⟩
  · rename_i al hal
    obtain ⟨⟨r', c⟩, hm, hres⟩ := Option.bind_eq_some_iff.mp hres
    cases hres
    obtain ⟨ht, hnil⟩ := Tends.mallocExpandBlock hm
    exact h.searched hal ht hnil

theorem Tame.getMemBufAllocator {size streamId : Nat} {fromPersistentMem : Bool} (h : Tame s)
    (hres : getMemBufAllocator dev size fromPersistentMem streamId s = (k, s')) :
    Follows s s' := by
  unfold Pool.getMemBufAllocator at hres
  split at hres
  · cases hres
    exact .refl h
  · cases hres
    exact h.same rfl h.made h.keys

theorem Tame.doFreeTensorMem (h : Tame s) (addr : Nat) :
    Follows s (doFreeTensorMem addr s).2 := by
  unfold Pool.doFreeTensorMem
  split
  · exact .refl h
  · rename_i p k hl
    split
    · rename_i al b hal hb
      have hput : Follows s (s.putCtx k (MemBufAllocator.free p .idle (s.ctx al)).2) := by
        refine h.putCtx hal (Tends.free ..) fun hk hnil => ?_
        subst hk
        -- the buffer lies in a block of the tiny allocator
        obtain ⟨al', hal', hne⟩ := h.keys _ _ hl
        have hal' : s.allocator? .tiny = some al' := hal'
        rw [hal] at hal'
        cases hal'
        exact absurd hnil ((Tends.free p .idle (s.ctx al)).held hne)
      generalize MemBufAllocator.free p .idle (s.ctx al) = r at hput
      obtain ⟨freed, c⟩ := r
      cases freed with
      | false => exact hput
      | true =>
          refine hput.trans (hput.tame.same rfl hput.tame.made fun a q hl => ?_)
          refine hput.tame.keys a q ?_
          by_cases ha : a = addr
          · rw [ha] at hl
            have hnone := hl.symm.trans (AList.lookup_erase ..)
            cases hnone
          · exact (AList.lookup_erase_ne ha).symm.trans hl
    · exact .refl h

/-! ## Events -/

theorem Tame.setEvents (h : Tame s) (p : Nat) (e : EventBase) : Follows s (s.setEvents p e) :=
  h.same rfl (h.made.modify p fun _ h => h) h.keys

/-- An operation made up of turns. -/
theorem Tame.foldl {α : Type} {f : Pool δ → α → Pool δ}
    (hf : ∀ (s : Pool δ) x, Tame s → Follows s (f s x)) (xs : List α) {s : Pool δ}
    (h : Tame s) : Follows s (xs.foldl f s) := by
  induction xs generalizing s with
  | nil => exact .refl h
  | cons x xs ih => exact (hf s x h).trans (ih (hf s x h).tame)

theorem Tame.erasePair (h : Tame s) (key : Nat × Nat) (p : Nat) :
    Follows s (erasePair key p s) := by
  unfold Pool.erasePair
  split
  · exact .refl h
  · exact h.same rfl h.made h.keys

theorem Tame.eraseAllPairs (h : Tame s) (p : Nat) : Follows s (eraseAllPairs p s) :=
  Tame.foldl (fun _ key h => h.erasePair key p) _ h

theorem Tame.recordOne (h : Tame s) (dev : Device δ) (taskId : Int) (user : Nat)
    (event : DeviceEvent) (ma : Nat × Nat) : Follows s (recordOne dev taskId user event s ma) := by
  unfold Pool.recordOne
  split
  · exact .refl h
  · rename_i p k hl
    split
    · exact .refl h
    · rename_i b hb
      have hcount : Follows s (if b.isEventNotUsed then s.addUsedByEvent b.size else s) := by
        split
        · exact h.same rfl h.made h.keys
        · exact .refl h
      refine hcount.trans ?_
      have hev := hcount.tame.setEvents p (b.toEventBase.recordEvent taskId user event)
      exact hev.trans (hev.tame.same rfl hev.tame.made hev.tame.keys)

theorem Tame.waitOne (h : Tame s) (taskId : Int) (key : Nat × Nat) (p : Nat) :
    Follows s (waitOne taskId key s p) := by
  unfold Pool.waitOne
  split
  · exact .refl h
  · rename_i b hb
    have hev := h.setEvents p (b.toEventBase.waitEvent (toUInt32 taskId) key.1).2
    dsimp only
    split
    · have herase := hev.trans (hev.tame.erasePair key p)
      have hcount : Follows s (Pool.subUsedByEvent b.size (Pool.erasePair key p
          (s.setEvents p (b.toEventBase.waitEvent (toUInt32 taskId) key.1).2))) :=
        herase.trans (herase.tame.same rfl herase.tame.made herase.tame.keys)
      split
      · have hall := hcount.trans (hcount.tame.eraseAllPairs p)
        exact hall.trans (hall.tame.doFreeTensorMem _)
      · exact hcount
    · exact hev

theorem Tame.syncOne (h : Tame s) (p : Nat) : Follows s (syncOne s p) := by
  unfold Pool.syncOne
  split
  · exact .refl h
  · rename_i b hb
    have hev := h.setEvents p b.toEventBase.syncAllEvents.2
    dsimp only
    split
    · exact hev.trans (hev.tame.doFreeTensorMem _)
    · exact hev

theorem Tame.waitPair (h : Tame s) (taskId : Int) (key : Nat × Nat) :
    Follows s (waitPair taskId s key) :=
  Tame.foldl (fun _ p h => h.waitOne taskId key p) _ h

theorem Tame.doSyncAllEvents (h : Tame s) (dev : Device δ) :
    Follows s (doSyncAllEvents dev s).2 := by
  unfold Pool.doSyncAllEvents
  split
  · exact .refl h
  · have hall := Tame.foldl (fun _ p h => h.syncOne p) (carryEventMemBufs dev s) h
    exact hall.trans (hall.tame.same rfl hall.tame.made hall.tame.keys)

/-! ## Eager free and alloc -/

theorem Tame.eagerFreeAllocators {keys : List (Lex (Bool × Nat))} {n m : Nat}
    {sizes : Nat × Nat} (h : Tame s)
    (hres : eagerFreeAllocators dev keys n m s = some (sizes, s')) : Follows s s' := by
  induction keys generalizing s n m with
  | nil =>
      cases hres
      exact .refl h
  | cons key keys ih =>
      simp only [Pool.eagerFreeAllocators] at hres
      cases hal : s.streamIdAllocators.find? key with
      | none =>
          rw [hal] at hres
          exact ih h hres
      | some al =>
          rw [hal] at hres
          obtain ⟨⟨⟨n₁, m₁⟩, c⟩, hfree, hres⟩ := Option.bind_eq_some_iff.mp hres
          have hal : s.allocator? (.stream (ofLex key).1 (ofLex key).2) = some al := hal
          have hput := h.putCtx hal (Tends.freeIdleMemsByEagerFree hfree) fun hk => by cases hk
          exact hput.trans (ih hput.tame hres)

theorem Tame.freeIdleMemsByEagerFree {sizes : Nat × Nat} (h : Tame s)
    (hres : freeIdleMemsByEagerFree dev s = some (sizes, s')) : Follows s s' := by
  obtain ⟨⟨⟨total, real⟩, s₁⟩, hsw, hres⟩ := Option.bind_eq_some_iff.mp hres
  cases hres
  have hcount : Follows s { s with eagerFreeCount := addSize s.eagerFreeCount 1 } :=
    h.same rfl h.made h.keys
  have hall := hcount.trans (hcount.tame.eagerFreeAllocators hsw)
  exact hall.trans (hall.tame.same rfl hall.tame.made hall.tame.keys)

theorem Tame.syncAllStreams {ok : Bool} (h : Tame s)
    (hres : syncAllStreams dev s = some (ok, s')) : Follows s s' := by
  obtain ⟨⟨ok', d⟩, -, hres⟩ := Option.bind_eq_some_iff.mp hres
  cases hres
  exact h.same rfl h.made h.keys

theorem Tame.defragMemory (h : Tame s) (hres : defragMemory dev s = some s') : Follows s s' := by
  unfold Pool.defragMemory at hres
  split at hres
  · cases hres
    exact .refl h
  · split at hres
    · cases hres
      exact .refl h
    · split at hres
      · cases hres
        exact .refl h
      · obtain ⟨⟨ok, s₁⟩, hsync, hres⟩ := Option.bind_eq_some_iff.mp hres
        have h₁ := h.syncAllStreams hsync
        dsimp only at hres
        split at hres
        · cases hres
          exact h₁
        · obtain ⟨⟨_, s₂⟩, hfree, hres⟩ := Option.bind_eq_some_iff.mp hres
          cases hres
          have h₂ := h₁.trans (h₁.tame.freeIdleMemsByEagerFree hfree)
          exact h₂.trans (h₂.tame.same rfl h₂.tame.made h₂.tame.keys)

/-- The outcome of a search: what is found in the tiny allocator is in a block of it. -/
def Searched (s s' : Pool δ) (r : Option (Nat × AllocatorKey)) : Prop :=
  Follows s s' ∧ ∀ p, r = some (p, .tiny) → TinyHeld s'

theorem Searched.cons {s₁ : Pool δ} {r : Option (Nat × AllocatorKey)} (h : Follows s s₁)
    (h' : Searched s₁ s' r) : Searched s s' r := ⟨h.trans h'.1, h'.2⟩

/-- The buffer of an attempt. -/
def Attempt.buf? : Attempt → Option (Nat × AllocatorKey)
  | .found p k => some (p, k)
  | .syncFailed => none
  | .exhausted _ => none

theorem Tame.expand_attempt {size : Nat} {r : Attempt} (h : Tame s)
    (hres : (do
      let (p, s) ← Pool.mallocExpandBlock dev k size s
      match p with
      | some p => some (Attempt.found p k, s)
      | none => some (Attempt.exhausted k, s)) = some (r, s')) : Searched s s' r.buf? := by
  obtain ⟨⟨p, s₁⟩, hm, hres⟩ := Option.bind_eq_some_iff.mp hres
  obtain ⟨hf, hheld⟩ := h.mallocExpandBlock hm
  cases p with
  | none =>
      cases hres
      exact ⟨hf, fun _ hr => by cases hr⟩
  | some p =>
      cases hres
      exact ⟨hf, fun _ hr => hheld (by simp) (congrArg Prod.snd (Option.some.inj hr))⟩

theorem Tame.mallocAfterEagerFree {size : Nat} {r : Attempt} (h : Tame s)
    (hres : mallocAfterEagerFree dev size k s = some (r, s')) : Searched s s' r.buf? := by
  unfold Pool.mallocAfterEagerFree at hres
  dsimp only at hres
  split at hres
  · obtain ⟨⟨ok, s₁⟩, hsync, hres⟩ := Option.bind_eq_some_iff.mp hres
    have h₁ := h.syncAllStreams hsync
    dsimp only at hres
    split at hres
    · cases hres
      exact ⟨h₁, fun _ hr => by cases hr⟩
    · obtain ⟨⟨_, s₂⟩, hfree, hres⟩ := Option.bind_eq_some_iff.mp hres
      have h₂ := h₁.trans (h₁.tame.freeIdleMemsByEagerFree hfree)
      obtain ⟨⟨p, s₃⟩, hm, hres⟩ := Option.bind_eq_some_iff.mp hres
      obtain ⟨hf, hheld⟩ := h₂.tame.malloc hm
      cases p with
      | some p =>
          cases hres
          exact ⟨h₂.trans hf, fun _ hr => hheld (by simp) (congrArg Prod.snd (Option.some.inj hr))⟩
      | none => exact .cons (h₂.trans hf) (hf.tame.expand_attempt hres)
  · exact h.expand_attempt hres

theorem Tame.findMemBuf {size streamId : Nat} {fromPersistentMem : Bool} {r : Attempt}
    (h : Tame s) (hres : findMemBuf dev size fromPersistentMem streamId s = some (r, s')) :
    Searched s s' r.buf? := by
  unfold Pool.findMemBuf at hres
  generalize hget : Pool.getMemBufAllocator dev size fromPersistentMem streamId s = ks at hres
  obtain ⟨k, s₁⟩ := ks
  have h₁ := h.getMemBufAllocator hget
  obtain ⟨⟨p, s₂⟩, hm, hres⟩ := Option.bind_eq_some_iff.mp hres
  obtain ⟨hf, hheld⟩ := h₁.tame.malloc hm
  cases p with
  | some p =>
      cases hres
      exact ⟨h₁.trans hf, fun _ hr => hheld (by simp) (congrArg Prod.snd (Option.some.inj hr))⟩
  | none =>
      have h₂ := h₁.trans hf
      obtain ⟨⟨⟨p, k'⟩, s₃⟩, hother, hres⟩ := Option.bind_eq_some_iff.mp hres
      unfold Pool.mallocFromAnother at hother
      split at hother
      · generalize hget' : Pool.getMemBufAllocator dev size (!fromPersistentMem) streamId s₂ = ks
          at hother
        obtain ⟨k₂, s₄⟩ := ks
        have h₄ := h₂.trans (h₂.tame.getMemBufAllocator hget')
        obtain ⟨⟨p', s₅⟩, hm', hother⟩ := Option.bind_eq_some_iff.mp hother
        cases hother
        obtain ⟨hf', hheld'⟩ := h₄.tame.malloc hm'
        cases p with
        | some p =>
            cases hres
            exact ⟨h₄.trans hf', fun _ hr =>
              hheld' (by simp) (congrArg Prod.snd (Option.some.inj hr))⟩
        | none => exact .cons (h₄.trans hf') (hf'.tame.mallocAfterEagerFree hres)
      · cases hother
        exact .cons h₂ (h₂.tame.mallocAfterEagerFree hres)

theorem Tame.countUsed (h : Tame s) (p : Nat) : Follows s (countUsed p s) := by
  unfold Pool.countUsed
  split
  · exact .refl h
  · exact h.same rfl h.made h.keys

theorem Tame.emplaceAddr (h : Tame s) (addr p : Nat) (hk : k = .tiny → TinyHeld s) :
    Follows s (emplaceAddr addr (p, k) s) := by
  unfold Pool.emplaceAddr
  split
  · exact .refl h
  · refine h.same rfl h.made fun a q hl => ?_
    by_cases ha : a = addr
    · rw [ha] at hl
      have hkey := (AList.lookup_insert ..).symm.trans hl
      exact hk (congrArg Prod.snd (Option.some.inj hkey))
    · exact h.keys a q ((AList.lookup_insert_ne ha).symm.trans hl)

theorem Tame.allocTensorMem {size streamId addr : Nat} {fromPersistentMem : Bool} (h : Tame s)
    (hres : allocTensorMem dev size fromPersistentMem streamId s = some (addr, s')) :
    Follows s s' := by
  obtain ⟨⟨r, s₁⟩, hmem, hres⟩ := Option.bind_eq_some_iff.mp hres
  obtain ⟨⟨a, s₂⟩, hfind, hmem⟩ := Option.bind_eq_some_iff.mp hmem
  obtain ⟨hf, hheld⟩ := h.findMemBuf hfind
  have hfound : ∀ {p : Nat} {k : AllocatorKey} {s₃ : Pool δ} (a : Nat), Tame s₃ →
      (k = .tiny → TinyHeld s₃) →
      Follows s₃ (Pool.emplaceAddr a (p, k) (Pool.countUsed p s₃)) := by
    intro p k s₃ a h₃ hk
    have hcount := h₃.countUsed p
    exact hcount.trans (hcount.tame.emplaceAddr a p fun hk' => hcount.held (hk hk'))
  cases a with
  | found p k =>
      cases hmem
      cases hres
      exact hf.trans (hfound _ hf.tame fun hk => hheld p (by rw [hk]; rfl))
  | syncFailed =>
      cases hmem
      cases hres
      exact hf
  | exhausted k =>
      have hsync := hf.trans (hf.tame.doSyncAllEvents dev)
      obtain ⟨⟨p, s₃⟩, hm, hmem⟩ := Option.bind_eq_some_iff.mp hmem
      obtain ⟨hf', hheld'⟩ := hsync.tame.malloc hm
      cases p with
      | none =>
          cases hmem
          cases hres
          exact hsync.trans hf'
      | some p =>
          cases hmem
          cases hres
          exact (hsync.trans hf').trans (hfound _ hf'.tame (hheld' (by simp)))

/-! ## Buffers that are cut -/

theorem BlocksMade.link {bufs : Heap MemBuf} {blocks : Heap MemBlock}
    (h : BlocksMade bufs blocks) (p : Nat) (prev next : Option Nat) :
    BlocksMade (linkMemBuf bufs p prev next) blocks := by
  intro q b hb
  have hdata := dataOf_get hb
  rw [dataOf_linkMemBuf] at hdata
  obtain ⟨b', hb', heq⟩ := dataOf_get_some hdata
  have hB : b'.memBlock = b.memBlock := congrArg BufData.memBlock heq
  rw [← hB]
  exact h q b' hb'

/-- A new buffer in the block of one that is there. -/
theorem Tame.newBuf (h : Tame s) {b : MemBuf} (hb : b.memBlock < s.blocks.next)
    (hk : k = .tiny → TinyHeld s) (addr q : Nat) (prev next : Option Nat) :
    Follows s (Pool.emplaceAddr addr (q, k)
      { s with bufs := linkMemBuf (s.bufs.new b) s.bufs.next prev next }) := by
  have hlink : Follows s { s with bufs := linkMemBuf (s.bufs.new b) s.bufs.next prev next } :=
    h.same rfl (BlocksMade.link (Heap.All.new h.made hb) _ _ _) h.keys
  exact hlink.trans (hlink.tame.emplaceAddr addr q fun hk' => hlink.held (hk hk'))

theorem Tame.resize (h : Tame s) (p n : Nat) :
    Follows s { s with bufs := s.bufs.modify p fun x => { x with size := n } } :=
  h.same rfl (h.made.modify p fun _ h => h) h.keys

theorem Tame.splitContinuous {streamId : Nat} {b : MemBuf} {ns : List Nat}
    {p a total : Nat} {addrs : List Nat} (h : Tame s) (hb : b.memBlock < s.blocks.next)
    (hk : k = .tiny → TinyHeld s) :
    Follows s (splitContinuous streamId b k ns p a total addrs s).2 := by
  induction ns generalizing s p a total addrs with
  | nil => exact .refl h
  | cons n ns ih =>
      unfold Pool.splitContinuous
      dsimp only
      let x : MemBuf := ⟨⟨none⟩, none, none, n, a, streamId, b.memBlock, .used⟩
      have hx : x.memBlock < s.blocks.next := hb
      generalize hprev : (((s.bufs.new x).get p).map MemBuf.next).getD none = next
      have hnew := h.newBuf hx hk a s.bufs.next (some p) next
      split
      · split
        · exact hnew.trans (hnew.tame.resize _ _)
        · exact hnew
      · refine hnew.trans (ih hnew.tame ?_ fun hk' => hnew.held (hk hk'))
        have hblocks : ∀ (v : Nat × AllocatorKey) (s : Pool δ),
            (Pool.emplaceAddr a v s).blocks = s.blocks := by
          intro v s
          unfold Pool.emplaceAddr
          split <;> rfl
        rw [hblocks]
        exact hb

theorem Tame.allocContinuousTensorMem {sizeList addrs : List Nat} {streamId : Nat} (h : Tame s)
    (hres : allocContinuousTensorMem dev sizeList streamId s = some (addrs, s')) :
    Follows s s' := by
  obtain ⟨⟨addr, s₁⟩, halloc, hres⟩ := Option.bind_eq_some_iff.mp hres
  have hf := h.allocTensorMem halloc
  dsimp only at hres
  split at hres
  · cases hres
    exact hf
  · split at hres
    · cases hres
      exact hf
    · split at hres
      · cases hres
        exact hf
      · rename_i p k hl
        split at hres
        · cases hres
          exact hf
        · rename_i b hb
          have hs : _ = s' := congrArg Prod.snd (Option.some.inj hres)
          rw [← hs]
          have hsize := hf.tame.resize p (sizeList.headD 0)
          have hB := hf.tame.made p b hb
          refine (hf.trans hsize).trans (hsize.tame.splitContinuous hB fun hk => ?_)
          rw [hk] at hl
          exact hsize.held (hf.tame.keys _ _ hl)

/-- The candidates of a part free come from the address map. -/
def KeysTame (m : OrdMap Nat (Nat × AllocatorKey)) (s : Pool δ) : Prop :=
  ∀ a p, (a, (p, AllocatorKey.tiny)) ∈ m.entries → TinyHeld s

theorem KeysTame.emplace {m : OrdMap Nat (Nat × AllocatorKey)} (h : KeysTame m s) {a p : Nat}
    (hk : k = .tiny → TinyHeld s) : KeysTame (m.emplace a (p, k)) s := by
  intro a' q hmem
  have hfind := OrdMap.find?_eq_some_iff.mpr hmem
  rw [OrdMap.find?_emplace] at hfind
  cases hm : m.find? a' with
  | some v =>
      rw [hm] at hfind
      cases hfind
      exact h a' q (OrdMap.find?_eq_some_iff.mp hm)
  | none =>
      rw [hm, Option.none_or] at hfind
      split at hfind
      · exact hk (congrArg Prod.snd (Option.some.inj hfind))
      · cases hfind

theorem KeysTame.erase {m : OrdMap Nat (Nat × AllocatorKey)} (h : KeysTame m s) (a : Nat) :
    KeysTame (m.erase a) s := fun a' q hmem =>
  h a' q (List.mem_filter.mp hmem).1

theorem KeysTame.follows {m : OrdMap Nat (Nat × AllocatorKey)} (h : KeysTame m s)
    (hf : Follows s s') : KeysTame m s' := fun a q hmem => hf.held (h a q hmem)

theorem keysTame_candidates (h : Tame s) (freeAddrs : List Nat) :
    KeysTame (freeCandidates freeAddrs s) s := by
  have hempty : KeysTame (OrdMap.empty : OrdMap Nat (Nat × AllocatorKey)) s :=
    fun a p hmem => absurd hmem (by simp [OrdMap.empty])
  unfold freeCandidates
  generalize (OrdMap.empty : OrdMap Nat (Nat × AllocatorKey)) = m at hempty
  induction freeAddrs generalizing m with
  | nil => exact hempty
  | cons a as ih =>
      refine ih _ ?_
      dsimp only
      cases hl : s.addrMemBufAllocators.lookup a with
      | none => exact hempty
      | some v =>
          obtain ⟨p, k⟩ := v
          refine hempty.emplace fun hk => ?_
          rw [hk] at hl
          exact h.keys _ _ hl

/-- The loop over the keep addresses. -/
structure FollowsPart (st st' : PartFree δ) : Prop extends Follows st.pool st'.pool where
  candidates : KeysTame st'.candidates st'.pool

theorem insertBehind_follows (h : Tame s) {b : MemBuf} (hb : b.memBlock < s.blocks.next)
    (hk : k = .tiny → TinyHeld s) (p : Nat) : Follows s (insertBehind p b k s).2 :=
  h.newBuf hb hk _ _ _ _

theorem keepTail_follows (st : PartFree δ) (h : Tame st.pool)
    (hc : KeysTame st.candidates st.pool) (hk : k = .tiny → TinyHeld st.pool)
    (keep keepEnd baseEnd : Nat) (status : MemBufStatus) :
    FollowsPart st (keepTail keep keepEnd baseEnd status k st) := by
  unfold keepTail
  split
  · split
    · exact ⟨.refl h, hc⟩
    · rename_i kb hkb
      let x : MemBuf := ⟨⟨none⟩, none, none, baseEnd - keepEnd, kb.addr + kb.size, kb.streamId,
        kb.memBlock, status⟩
      have hx : x.memBlock < st.pool.blocks.next := h.made keep kb hkb
      have hf := insertBehind_follows h hx hk keep
      exact ⟨hf, (hc.follows hf).emplace fun hk' => hf.held (hk hk')⟩
  · exact ⟨.refl h, hc⟩

theorem keepOne_follows {st : PartFree δ} (h : Tame st.pool)
    (hc : KeysTame st.candidates st.pool) (keepAddr keepSize : Nat) :
    FollowsPart st (keepOne st keepAddr keepSize) := by
  unfold keepOne
  split
  · exact ⟨.refl h, hc⟩
  · dsimp only
    split
    · exact ⟨.refl h, hc⟩
    · rename_i a p k hfloor
      split
      · exact ⟨.refl h, hc⟩
      · rename_i b hb
        have hk : k = .tiny → TinyHeld st.pool := by
          intro hk
          subst hk
          exact hc a p (OrdMap.floor?_eq_some hfloor).1
        split
        · exact ⟨.refl h, hc⟩
        · split
          · have hsize := h.resize p keepSize
            have hcand := (hc.erase b.addr).follows hsize
            have htail := keepTail_follows ⟨_, _, keepAddr :: st.processed,
              st.memBufs ++ [p]⟩ hsize.tame hcand (fun hk' => hsize.held (hk hk')) p
              (addSize keepAddr keepSize) (addSize b.addr b.size) b.status
            exact ⟨hsize.trans htail.toFollows, htail.candidates⟩
          · let x : MemBuf := ⟨⟨none⟩, none, none, keepSize, keepAddr, b.streamId, b.memBlock,
              b.status⟩
            have hx : x.memBlock < st.pool.blocks.next := h.made p b hb
            have hnew := insertBehind_follows h hx hk p
            have hsize := hnew.trans (hnew.tame.resize p (keepAddr - b.addr))
            have htail := keepTail_follows ⟨_, _, keepAddr :: st.processed,
              st.memBufs ++ [st.pool.bufs.next]⟩ hsize.tame (hc.follows hsize)
              (fun hk' => hsize.held (hk hk')) st.pool.bufs.next (addSize keepAddr keepSize)
              (addSize b.addr b.size) b.status
            exact ⟨hsize.trans htail.toFollows, htail.candidates⟩

theorem Tame.freePartTensorMems (h : Tame s) (freeAddrs keepAddrs keepAddrSizes : List Nat) :
    Follows s (freePartTensorMems freeAddrs keepAddrs keepAddrSizes s) := by
  have hloop : ∀ (keeps : List (Nat × Nat)) (st : PartFree δ), Tame st.pool →
      KeysTame st.candidates st.pool → Follows st.pool (keepAll keeps st).pool := by
    intro keeps
    induction keeps with
    | nil => exact fun st hst _ => .refl hst
    | cons keep keeps ih =>
        intro st hst hc
        have hone := keepOne_follows hst hc keep.1 keep.2
        exact hone.toFollows.trans (ih _ hone.tame hone.candidates)
  have hall := hloop (keepAddrs.zip keepAddrSizes)
    { pool := s, candidates := freeCandidates freeAddrs s } h (keysTame_candidates h freeAddrs)
  refine hall.trans (Tame.foldl (fun s candidate hs => ?_) _ hall.tame)
  unfold freeCandidate
  split
  · exact .refl hs
  · exact hs.doFreeTensorMem _

end Pool

end Ccbase.Memory
