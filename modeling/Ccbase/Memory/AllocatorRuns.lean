import Ccbase.Memory.Sweep
import Ccbase.Lib.Run

/-!
# Runs of one allocator

An allocator on its own: a client calls its methods and records events on the buffers it
holds. The callbacks are any functions, other ones at every call, as long as a block that
the expander hands out is new.
-/

namespace Ccbase.Memory

open Ccbase.Lib Chain Relation

variable {ε : Type}

inductive AllocCall where
  | malloc (size : Nat)
  | mallocExpandBlock (size : Nat)
  | free (p : Nat) (target : MemBufStatus)
  | setEvents (p : Nat) (events : EventBase)
  | freeIdleMemsByEagerFree
  | releaseDeviceRes

namespace MemBufAllocator

def call (cb : Callbacks ε) (c : Ctx ε) : AllocCall → Option (Ctx ε)
  | .malloc size => (malloc cb size c).map Prod.snd
  | .mallocExpandBlock size => (mallocExpandBlock cb size c).map Prod.snd
  | .free p target => some (free p target c).2
  | .setEvents p events =>
      some { c with bufs := c.bufs.modify p fun b => { b with toEventBase := events } }
  | .freeIdleMemsByEagerFree => (freeIdleMemsByEagerFree cb c).map Prod.snd
  | .releaseDeviceRes => releaseDeviceRes cb c

/-- The buffer `p` has been handed out and is not free yet. -/
def InUse (c : Ctx ε) (p : Nat) : Prop :=
  ∃ b ∈ c.bufs.get p, b.memBlock ∈ c.alloc.memBlocks ∧ ¬ b.status.isFree

/-- Clients free and use what they hold; `Free` makes buffers idle or eagerly free. -/
def Allowed (c : Ctx ε) : AllocCall → Prop
  | .free p target => InUse c p ∧ target.isFree
  | .setEvents p _ => InUse c p
  | _ => True

/-- A block that the expander hands out overlaps no other block of the allocator, has an
address of its own and lies in the address space. -/
structure Fresh (cb : Callbacks ε) (c : Ctx ε) : Prop where
  apart : ∀ size blk env, cb.memBlockExpander size c.env = some (some blk, env) →
    ∀ C ∈ c.alloc.memBlocks, ∀ k, c.blocks.get C = some k → blk.Apart k
  base : ∀ size blk env, cb.memBlockExpander size c.env = some (some blk, env) →
    ∀ C ∈ c.alloc.memBlocks, ∀ k, c.blocks.get C = some k → blk.addr ≠ k.addr
  inSpace : ∀ size blk e env, cb.memBlockExpander size e = some (some blk, env) →
    blk.addr + blk.size < sizeBound

def AllocStep (c : Ctx ε) (l : AllocCall) (c' : Ctx ε) : Prop :=
  ∃ cb, Fresh cb c ∧ Allowed c l ∧ call cb c l = some c'

/-- An allocator right after its construction. -/
def start (enableEagerFree isPersistent : Bool) (streamId : Nat) (env : ε) : Ctx ε where
  alloc := { enableEagerFree, isPersistent, streamId }
  bufs := .empty
  blocks := .empty
  env := env

/-! ## What every step keeps -/

structure State (c : Ctx ε) : Prop where
  tidy : ∃ lay, Tidy c lay none
  owned : FreeOwned c
  inSpace : BlocksInSpace c
  old : ∀ p b, c.bufs.get p = some b → b.memBlock < c.blocks.next

variable {c c' : Ctx ε} {lay lay' : Nat → List Nat} {p : Nat} {b : MemBuf} {cb : Callbacks ε}

/-- An allocator without blocks has nothing to keep in order. -/
theorem tidy_of_empty (hown : c.alloc.memBlocks = []) (hfree : c.alloc.freeMemBufs = [])
    (heager : c.alloc.eagerFreeMemBufs = []) : Tidy c lay none := by
  have hnone : ∀ B, B ∉ c.alloc.memBlocks := fun B hB => by
    rw [hown] at hB
    cases hB
  have hset : ∀ st, SetOk (dataOf c.bufs) c.alloc.memBlocks st [] none := fun st =>
    ⟨List.Pairwise.nil, fun p hp => absurd hp List.not_mem_nil,
      fun p d _ hB => absurd hB (hnone _)⟩
  have hfull : ∀ st, SetFull (dataOf c.bufs) c.alloc.memBlocks st [] none :=
    fun st p d _ hB => absurd hB (hnone _)
  exact
    { inv :=
        { blocksNodup := by rw [hown]; exact List.nodup_nil
          chain := fun B hB => absurd hB (hnone B)
          nodup := fun B hB => absurd hB (hnone B)
          mem_iff := fun B hB => absurd hB (hnone B)
          apart := fun B hB => absurd hB (hnone B)
          quiet := fun _ _ _ hB => absurd hB (hnone _)
          free := by rw [hfree]; exact hset _
          eager := by rw [heager]; exact hset _ }
      spaced := fun B hB => absurd hB (hnone B)
      zero := fun B hB => absurd hB (hnone B)
      twins := fun B hB => absurd hB (hnone B)
      free := by rw [hfree]; exact hfull _
      eager := by rw [heager]; exact hfull _ }

theorem State.initial (eager persistent : Bool) (streamId : Nat) (env : ε) :
    State (start eager persistent streamId env) where
  tidy := ⟨fun _ => [], tidy_of_empty rfl rfl rfl⟩
  owned := fun _ _ hb => by cases hb
  inSpace := fun _ hB => by cases hB
  old := fun _ _ hb => by cases hb

/-- What is left to show after a step that concerns the blocks of the allocator. -/
theorem State.ext (h : State c) (hext : Ext c c' lay lay') (htidy : Tidy c' lay' none)
    (hspace : BlocksInSpace c') : State c' where
  tidy := ⟨lay', htidy⟩
  owned := by
    intro p b hb hst
    by_contra hB
    exact hB (hext.own _ (h.owned p b ((hext.outside p b hB).mp hb) hst))
  inSpace := hspace
  old := by
    intro p b hb
    by_cases hB : b.memBlock ∈ c'.alloc.memBlocks
    · obtain ⟨blk, hblk, -⟩ := htidy.inv.chain _ hB
      exact Heap.lt_next hblk
    · exact Nat.lt_of_lt_of_le (h.old p b ((hext.outside p b hB).mp hb)) hext.next

theorem State.expandable (h : State c) (hfresh : Fresh cb c) : Expandable cb c where
  can := ⟨hfresh.apart, fun r d hd => by
    obtain ⟨b, hb, rfl⟩ := dataOf_get_some hd
    exact (h.old r b hb).ne⟩
  base := hfresh.base

/-! ### Blocks stay in the address space -/

/-- `BlocksInSpace` where links are forgotten. -/
def CoreInSpace (m : Core ε) : Prop :=
  ∀ B r, m.own B → m.blocks.get B = some r → r.1 + r.2 < sizeBound

theorem coreInSpace_iff : CoreInSpace c.core ↔ BlocksInSpace c := by
  constructor
  · intro h B hB blk hblk
    exact h B blk.span hB (by simp [Ctx.core, hblk])
  · intro h B r hB hr
    obtain ⟨blk, hblk, rfl⟩ := Option.map_eq_some_iff.mp
      ((Heap.get_map MemBlock.span c.blocks B).symm.trans hr)
    exact h B hB blk hblk

theorem CoreInSpace.churn {m m' : Core ε} {eager : Bool} (h : CoreInSpace m)
    (hfresh : ∀ size blk e env, cb.memBlockExpander size e = some (some blk, env) →
      blk.addr + blk.size < sizeBound) (hstep : Churn cb eager m m') : CoreInSpace m' := by
  cases hstep with
  | split => exact h
  | mapFail => exact h
  | expandFail => exact h
  | @expand size blk env hcb =>
      intro B r hB hr
      rw [Heap.get_new] at hr
      split at hr
      · cases hr
        exact hfresh size blk _ env hcb
      · rename_i hne
        exact h B r (hB.resolve_right hne) hr

theorem CoreInSpace.path {m m' : Core ε} {eager : Bool} (h : CoreInSpace m)
    (hfresh : ∀ size blk e env, cb.memBlockExpander size e = some (some blk, env) →
      blk.addr + blk.size < sizeBound) (hpath : ReflTransGen (Churn cb eager) m m') :
    CoreInSpace m' := by
  induction hpath with
  | refl => exact h
  | tail _ hstep ih => exact ih.churn hfresh hstep

theorem Malloced.inSpace {size : Nat} {r : Option Nat} (hm : Malloced cb size c lay r c' lay')
    (h : BlocksInSpace c) (hfresh : Fresh cb c) : BlocksInSpace c' := by
  rw [← coreInSpace_iff] at h ⊢
  cases r with
  | none => exact h.path hfresh.inSpace (hm.none rfl)
  | some p =>
      obtain ⟨m, hpath, htake⟩ := hm.some p rfl
      have hm := h.path hfresh.inSpace hpath
      generalize c'.core = m' at htake ⊢
      cases htake with
      | idle => exact hm
      | eager => exact hm

/-! ### The calls -/

theorem State.malloc {size : Nat} {r : Option Nat} (h : State c) (hfresh : Fresh cb c)
    (hsize : 0 < size) (hres : malloc cb size c = some (r, c')) : State c' := by
  obtain ⟨lay, htidy⟩ := h.tidy
  obtain ⟨lay', hext, htidy'⟩ := malloc_tidy htidy (h.expandable hfresh) hsize hres
  obtain ⟨_, hm⟩ := malloc_spec htidy.inv (h.expandable hfresh).can hres
  exact h.ext hext htidy' (hm.inSpace h.inSpace hfresh)

theorem State.mallocExpandBlock {size : Nat} {r : Option Nat} (h : State c)
    (hfresh : Fresh cb c) (hres : mallocExpandBlock cb size c = some (r, c')) : State c' := by
  obtain ⟨lay, htidy⟩ := h.tidy
  obtain ⟨lay', hext, htidy'⟩ := mallocExpandBlock_tidy htidy (h.expandable hfresh) hres
  obtain ⟨_, hm⟩ := mallocExpandBlock_spec htidy.inv (h.expandable hfresh).can hres
  exact h.ext hext htidy' (hm.inSpace h.inSpace hfresh)

/-- A buffer in use changes its events, or waits for them. -/
theorem State.retag {f : MemBuf → MemBuf} {g : BufData → BufData} (h : State c)
    (hp : c.bufs.get p = some b) (hB : b.memBlock ∈ c.alloc.memBlocks)
    (hst : ¬ b.status.isFree) (hfg : ∀ b, (f b).data = g b.data) (hshape : shape (f b) = shape b)
    (hblk : (f b).memBlock = b.memBlock) (hst' : ¬ (f b).status.isFree) :
    State { c with bufs := c.bufs.modify p f } := by
  obtain ⟨lay, htidy⟩ := h.tidy
  have hget : (c.bufs.modify p f).get p = some (f b) := by
    rw [Heap.get_modify_self, hp]
    rfl
  have htidy' := ((htidy.detach hp hst).retag hp hfg hshape hblk hB
    (fun hfree => absurd hfree hst')).attach hget hst'
  have hext : Ext c { c with bufs := c.bufs.modify p f } lay lay :=
    { own := fun _ hC => hC
      fresh := fun _ hC => .inl hC
      outside := Outside.modify hp hB (by rw [hblk]; exact hB)
      blocksOut := fun _ _ => rfl
      layOut := fun _ _ => rfl
      next := Nat.le_refl _
      eager := rfl }
  exact h.ext hext htidy' h.inSpace

theorem not_isFree_usedByEvent : ¬ MemBufStatus.isFree .usedByEvent := by
  rintro (heq | heq)
  · cases heq
  · cases heq

theorem State.free {target : MemBufStatus} (h : State c) (hp : InUse c p)
    (htarget : target.isFree) : State (free p target c).2 := by
  obtain ⟨b, hb, hB, hst⟩ := hp
  have hb : c.bufs.get p = some b := hb
  obtain ⟨lay, htidy⟩ := h.tidy
  unfold MemBufAllocator.free
  simp only [hb]
  split
  · exact h.retag (g := fun d => { d with status := .usedByEvent }) hb hB hst (fun _ => rfl) rfl
      rfl not_isFree_usedByEvent
  · rename_i hquiet
    rw [Bool.not_eq_true', Bool.not_eq_false] at hquiet
    obtain ⟨lay', hco, htidy', -⟩ := coalesce_tidy target (htidy.detach hb hst) hb hB hquiet
      htarget
    refine h.ext hco.ext htidy' fun B hB' blk hblk => ?_
    rw [hco.own] at hB'
    rw [hco.blocks] at hblk
    exact h.inSpace B hB' blk hblk

theorem State.freeIdleMemsByEagerFree {sizes : Nat × Nat} (h : State c)
    (hres : freeIdleMemsByEagerFree cb c = some (sizes, c')) : State c' := by
  obtain ⟨lay, htidy⟩ := h.tidy
  obtain ⟨hswept, lay', hext, htidy'⟩ :=
    freeIdleMemsByEagerFree_swept htidy h.owned h.inSpace hres
  refine h.ext hext htidy' fun B hB blk hblk => ?_
  rw [hswept.own] at hB
  rw [hswept.blocks] at hblk
  exact h.inSpace B hB blk hblk

theorem get_deleteAll {α : Type} (ps : List Nat) (h : Heap α) (q : Nat) :
    (deleteAll ps h).get q = if q ∈ ps then none else h.get q := by
  induction ps generalizing h with
  | nil => rfl
  | cons p ps ih =>
      show (deleteAll ps (h.delete p)).get q = _
      rw [ih, Heap.get_delete]
      by_cases hq : q ∈ ps
      · rw [if_pos hq, if_pos (.tail _ hq)]
      · rw [if_neg hq]
        by_cases hqp : q = p
        · rw [if_pos hqp, if_pos (by rw [hqp]; exact .head _)]
        · rw [if_neg hqp, if_neg (by simp [hqp, hq])]

theorem next_deleteAll {α : Type} (ps : List Nat) (h : Heap α) :
    (deleteAll ps h).next = h.next := by
  induction ps generalizing h with
  | nil => rfl
  | cons p ps ih => exact ih (h.delete p)

theorem cleanBlocks_env {ps : List Nat} (hres : cleanBlocks cb ps c = some c') :
    ∃ env, c' = { c with env } := by
  induction ps generalizing c with
  | nil =>
      cases hres
      exact ⟨c'.env, rfl⟩
  | cons p ps ih =>
      unfold cleanBlocks at hres
      split at hres
      · exact ih hres
      · obtain ⟨⟨ok, env⟩, -, hres⟩ := Option.bind_eq_some_iff.mp hres
        obtain ⟨env', rfl⟩ := ih hres
        exact ⟨env', rfl⟩

/-- The free buffers go with the blocks; those in use stay behind, without a block. -/
theorem State.releaseDeviceRes (h : State c) (hres : releaseDeviceRes cb c = some c') :
    State c' := by
  obtain ⟨lay, htidy⟩ := h.tidy
  unfold MemBufAllocator.releaseDeviceRes at hres
  obtain ⟨c₁, hclean, hres⟩ := Option.bind_eq_some_iff.mp hres
  obtain ⟨env, rfl⟩ := cleanBlocks_env hclean
  cases hres
  have hget : ∀ p b, (deleteAll c.alloc.eagerFreeMemBufs
      (deleteAll c.alloc.freeMemBufs c.bufs)).get p = some b →
      p ∉ c.alloc.eagerFreeMemBufs ∧ p ∉ c.alloc.freeMemBufs ∧ c.bufs.get p = some b := by
    intro p b hb
    rw [get_deleteAll] at hb
    split at hb
    · cases hb
    · rename_i he
      rw [get_deleteAll] at hb
      split at hb
      · cases hb
      · rename_i hf
        exact ⟨he, hf, hb⟩
  exact
    { tidy := ⟨fun _ => [], tidy_of_empty rfl rfl rfl⟩
      owned := by
        intro p b hb hst
        obtain ⟨he, hf, hb⟩ := hget p b hb
        have hB := h.owned p b hb hst
        rcases hst with hst | hst
        · exact absurd ((htidy.set_free p).mpr ⟨b, hb, hB, hst⟩) hf
        · exact absurd ((htidy.set_eager p).mpr ⟨b, hb, hB, hst⟩) he
      inSpace := fun _ hB => by cases hB
      old := by
        intro p b hb
        show b.memBlock < (deleteAll c.alloc.memBlocks c.blocks).next
        rw [next_deleteAll]
        exact h.old p b (hget p b hb).2.2 }

theorem State.step {l : AllocCall} (h : State c) (hstep : AllocStep c l c')
    (hl : l ≠ .malloc 0) : State c' := by
  obtain ⟨cb, hfresh, hallowed, hcall⟩ := hstep
  cases l with
  | malloc size =>
      obtain ⟨⟨r, c₁⟩, hres, rfl⟩ := Option.map_eq_some_iff.mp hcall
      exact h.malloc hfresh (Nat.pos_of_ne_zero fun h0 => hl (by rw [h0])) hres
  | mallocExpandBlock size =>
      obtain ⟨⟨r, c₁⟩, hres, rfl⟩ := Option.map_eq_some_iff.mp hcall
      exact h.mallocExpandBlock hfresh hres
  | free p target =>
      cases hcall
      exact h.free hallowed.1 hallowed.2
  | setEvents p events =>
      cases hcall
      obtain ⟨b, hb, hB, hst⟩ := hallowed
      exact h.retag (f := fun b => { b with toEventBase := events })
        (g := fun d => { d with toEventBase := events }) hb hB hst (fun _ => rfl) rfl rfl hst
  | freeIdleMemsByEagerFree =>
      obtain ⟨⟨sizes, c₁⟩, hres, rfl⟩ := Option.map_eq_some_iff.mp hcall
      exact h.freeIdleMemsByEagerFree hres
  | releaseDeviceRes => exact h.releaseDeviceRes hcall

theorem State.run {eager persistent : Bool} {streamId : Nat} {env : ε} {ls : List AllocCall}
    (hrun : Run AllocStep (start eager persistent streamId env) ls c)
    (hpos : .malloc 0 ∉ ls) : State c := by
  refine hrun.inv (I := fun ls c => .malloc 0 ∉ ls → State c) (fun _ => .initial ..) ?_ hpos
  intro ls c l c' ih hstep hpos
  rw [List.mem_append, not_or, List.mem_singleton] at hpos
  exact (ih hpos.1).step hstep fun heq => hpos.2 heq.symm

/-! ## Chains and sets -/

/-- The chains and sets of an allocator as a client may rely on them. -/
structure Orderly (c : Ctx ε) : Prop where
  chains : ∀ B ∈ c.alloc.memBlocks, ∃ ps, Chained c B ps ∧ ∀ q r x y, Adj ps q r →
    c.bufs.get q = some x → c.bufs.get r = some y →
    ¬ (x.status = .idle ∧ y.status = .idle) ∧ ¬ (x.status = .eagerFree ∧ y.status = .eagerFree)
  free : ∀ p, p ∈ c.alloc.freeMemBufs ↔ ∃ b, c.bufs.get p = some b ∧ b.status = .idle
  eager : ∀ p, p ∈ c.alloc.eagerFreeMemBufs ↔ ∃ b, c.bufs.get p = some b ∧ b.status = .eagerFree
  freeSorted : OrdSet.Sorted (memBufKey c.bufs) c.alloc.freeMemBufs
  eagerSorted : OrdSet.Sorted (memBufKey c.bufs) c.alloc.eagerFreeMemBufs

theorem State.orderly (h : State c) : Orderly c := by
  obtain ⟨lay, htidy⟩ := h.tidy
  exact
    { chains := by
        intro B hB
        refine ⟨lay B, htidy.inv.chained hB, fun q r x y hadj hx hy => ?_⟩
        have htw := htidy.twins B hB q r x.data y.data hadj (dataOf_get hx) (dataOf_get hy)
          (by simp) (by simp)
        constructor
        · rintro ⟨hxst, hyst⟩
          exact htw ⟨hxst.trans hyst.symm, .inl hxst⟩
        · rintro ⟨hxst, hyst⟩
          exact htw ⟨hxst.trans hyst.symm, .inr hxst⟩
      free := by
        intro p
        rw [htidy.set_free]
        constructor
        · rintro ⟨b, hb, -, hst⟩
          exact ⟨b, hb, hst⟩
        · rintro ⟨b, hb, hst⟩
          exact ⟨b, hb, h.owned p b hb (.inl hst), hst⟩
      eager := by
        intro p
        rw [htidy.set_eager]
        constructor
        · rintro ⟨b, hb, -, hst⟩
          exact ⟨b, hb, hst⟩
        · rintro ⟨b, hb, hst⟩
          exact ⟨b, hb, h.owned p b hb (.inr hst), hst⟩
      freeSorted := by
        rw [memBufKey_eq]
        exact htidy.inv.free.sorted
      eagerSorted := by
        rw [memBufKey_eq]
        exact htidy.inv.eager.sorted }

/-- Chains and sets are in order after every run, as long as no `Malloc` asks for `0` bytes. -/
theorem orderly_run {eager persistent : Bool} {streamId : Nat} {env : ε} {ls : List AllocCall}
    {c : Ctx ε} (hrun : Run AllocStep (start eager persistent streamId env) ls c)
    (hpos : .malloc 0 ∉ ls) : Orderly c :=
  (State.run hrun hpos).orderly

/-- A device with one block of `n` bytes. -/
def oneBlock (n : Nat) : Callbacks Nat where
  memBlockExpander _ k :=
    some (if k = 0 then some { size := n, addr := 4096, streamId := 0 } else none, k + 1)
  memBlockCleaner _ k := some (true, k)
  memMapper size _ k := some (size, k)
  memEagerFreer _ size k := some (size, k)

theorem oneBlock_fresh {n : Nat} {c : Ctx Nat} (hn : 4096 + n < sizeBound)
    (h : c.env = 0 → c.alloc.memBlocks = []) : Fresh (oneBlock n) c := by
  have hblock : ∀ size blk e env, (oneBlock n).memBlockExpander size e = some (some blk, env) →
      e = 0 ∧ blk = { size := n, addr := 4096, streamId := 0 } := by
    intro size blk e env hres
    simp only [oneBlock, Option.some.injEq, Prod.mk.injEq] at hres
    split at hres
    · rename_i he
      exact ⟨he, (Option.some.inj hres.1).symm⟩
    · cases hres.1
  refine ⟨fun size blk env hres C hC => ?_, fun size blk env hres C hC => ?_,
    fun size blk e env hres => ?_⟩
  · rw [h (hblock size blk _ env hres).1] at hC
    cases hC
  · rw [h (hblock size blk _ env hres).1] at hC
    cases hC
  · rw [(hblock size blk e env hres).2]
    exact hn

/-- What may be called with `oneBlock`. -/
def OneBlockCall (c : Ctx Nat) (l : AllocCall) : Prop :=
  Allowed c l ∧ (c.env = 0 → c.alloc.memBlocks = [])

instance (c : Ctx ε) (p : Nat) : Decidable (InUse c p) :=
  inferInstanceAs (Decidable
    (∃ b ∈ c.bufs.get p, b.memBlock ∈ c.alloc.memBlocks ∧ ¬ b.status.isFree))

instance (c : Ctx ε) : DecidablePred (Allowed c)
  | .malloc _ => isTrue trivial
  | .mallocExpandBlock _ => isTrue trivial
  | .free p target => inferInstanceAs (Decidable (InUse c p ∧ target.isFree))
  | .setEvents p _ => inferInstanceAs (Decidable (InUse c p))
  | .freeIdleMemsByEagerFree => isTrue trivial
  | .releaseDeviceRes => isTrue trivial

instance (c : Ctx Nat) (l : AllocCall) : Decidable (OneBlockCall c l) :=
  inferInstanceAs (Decidable (Allowed c l ∧ (c.env = 0 → c.alloc.memBlocks = [])))

theorem oneBlock_run {n : Nat} (hn : 4096 + n < sizeBound) {c c' : Ctx Nat} {ls : List AllocCall}
    (h : Run.exec (call (oneBlock n)) OneBlockCall c ls = some c') : Run AllocStep c ls c' :=
  (Run.of_exec h).imp fun _ _ _ hs => ⟨oneBlock n, oneBlock_fresh hn hs.2.2, hs.2.1, hs.1⟩

theorem orderly_run_three : ∃ c : Ctx Nat,
    Run AllocStep (start true false 0 0)
      [.malloc 512, .free 0 .idle, .freeIdleMemsByEagerFree] c ∧ Orderly c := by
  obtain ⟨c, hc⟩ : ∃ c, Run.exec (call (oneBlock 1024)) OneBlockCall (start true false 0 0)
      [.malloc 512, .free 0 .idle, .freeIdleMemsByEagerFree] = some c :=
    Option.isSome_iff_exists.mp (by decide +kernel)
  have hrun := oneBlock_run (by decide) hc
  exact ⟨c, hrun, orderly_run hrun (by simp)⟩

/-! ## The eager free of a reachable state -/

/-- The call reads no deleted buffer, and if it comes back it has swept the blocks. -/
def SweepOk (cb : Callbacks ε) (c : Ctx ε) : Prop :=
  freeIdleMemsByEagerFreeChecked cb c = some (freeIdleMemsByEagerFree cb c) ∧
    ∀ sizes c', freeIdleMemsByEagerFree cb c = some (sizes, c') → Swept c sizes.1 c'

theorem sweepOk_run {eager persistent : Bool} {streamId : Nat} {env : ε} {ls : List AllocCall}
    {c : Ctx ε} (hrun : Run AllocStep (start eager persistent streamId env) ls c)
    (hpos : .malloc 0 ∉ ls) (cb : Callbacks ε) : SweepOk cb c := by
  have h := State.run hrun hpos
  obtain ⟨lay, htidy⟩ := h.tidy
  exact ⟨freeIdleMemsByEagerFreeChecked_eq cb htidy, fun sizes c' hres =>
    (freeIdleMemsByEagerFree_swept htidy h.owned h.inSpace hres).1⟩

theorem sweepOk_run_two : ∃ c : Ctx Nat,
    Run AllocStep (start false false 0 0) [.malloc 512, .free 0 .eagerFree] c ∧
      SweepOk (oneBlock 1024) c := by
  obtain ⟨c, hc⟩ : ∃ c, Run.exec (call (oneBlock 1024)) OneBlockCall (start false false 0 0)
      [.malloc 512, .free 0 .eagerFree] = some c :=
    Option.isSome_iff_exists.mp (by decide +kernel)
  have hrun := oneBlock_run (by decide) hc
  exact ⟨c, hrun, sweepOk_run hrun (by simp) _⟩

/-- Three empty buffers at the start of a block, the first and the third of them idle: they
have the same key. -/
def twoEmptyIdle : List AllocCall :=
  [.malloc 0, .malloc 0, .malloc 0, .malloc 1024, .free 0 .idle, .free 2 .idle]

/-- The idle set holds one of two empty buffers only, and the other one stays idle. -/
theorem empty_buffer_not_swept : ∃ c : Ctx Nat,
    Run AllocStep (start false false 0 0) twoEmptyIdle c ∧ ¬ SweepOk (oneBlock 1024) c := by
  have heval : ((Run.exec (call (oneBlock 1024)) OneBlockCall (start false false 0 0)
      twoEmptyIdle).bind fun c => (freeIdleMemsByEagerFree (oneBlock 1024) c).map fun res =>
        (c.alloc.memBlocks, (res.2.bufs.get 2).map fun b => (b.memBlock, b.status))) =
      some ([0], some (0, .idle)) := by decide +kernel
  obtain ⟨c, hc, heval⟩ := Option.bind_eq_some_iff.mp heval
  obtain ⟨⟨sizes, c'⟩, hres, heval⟩ := Option.map_eq_some_iff.mp heval
  obtain ⟨hown, hidle⟩ := Prod.mk.inj heval
  obtain ⟨b, hb, hdata⟩ := Option.map_eq_some_iff.mp hidle
  obtain ⟨hB, hst⟩ := Prod.mk.inj hdata
  refine ⟨c, oneBlock_run (by decide) hc, fun hok => ?_⟩
  obtain ⟨ps, ps', -, hps', hcells⟩ := (hok.2 sizes c' hres).runs 0 (by rw [hown]; simp)
  have hmem : Cell.of 2 b.data ∈ cells (dataOf c'.bufs) ps' :=
    mem_cells.mpr ⟨2, (hps'.mem_iff 2).mpr ⟨b, hb, hB⟩, b.data, dataOf_get hb, rfl⟩
  rw [hcells, Cell.of_free (.inl hst)] at hmem
  have heager : b.status = .eagerFree := free_mem_sweepCells hmem
  rw [show b.status = .idle from hst] at heager
  cases heager

end MemBufAllocator

end Ccbase.Memory
