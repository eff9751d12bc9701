import Ccbase.Memory.PoolInv
import Ccbase.Memory.EventBase

/-!
# The operations of the pool on the arena

`FreeTensorMem`, `RecordEvent`, both `WaitEvent`, `SyncAllEvents` and
`AllocTensorMem`, each with the step it takes on the arena and the proof that it
keeps `Inv`. The loops over the sets of event-carrying buffers become chains of
single steps, one for each member.
-/

namespace Ccbase.Memory

open Ccbase.Lib Chain Relation

variable {δ : Type} {dev : Device δ}

namespace Arena

/-! ## Steps on events -/

/-- The events of a buffer are replaced. -/
def setEvents (A : Arena δ) (p : Nat) (e : EventBase) : Arena δ :=
  { A with bufs := A.bufs.modify p fun d => { d with toEventBase := e } }

def erasePair (key : Nat × Nat) (p : Nat) (A : Arena δ) : Arena δ :=
  match A.pairs.lookup key with
  | none => A
  | some ps => { A with pairs := A.pairs.insert key (ps.erase p) }

def eraseAllPairs (p : Nat) (A : Arena δ) : Arena δ :=
  (A.pairs.entries.map Sigma.fst).foldl (fun A key => erasePair key p A) A

def addUsedByEvent (n : Nat) (A : Arena δ) : Arena δ :=
  { A with env := { A.env with memStat := { A.env.memStat with
      usedByEventSize := addSize A.env.memStat.usedByEventSize n } } }

def subUsedByEvent (n : Nat) (A : Arena δ) : Arena δ :=
  { A with env := { A.env with memStat := { A.env.memStat with
      usedByEventSize := subSize A.env.memStat.usedByEventSize n } } }

/-- `DoFreeTensorMem`. -/
inductive FreeStep (addr : Nat) (A : Arena δ) : Bool → Arena δ → Prop where
  | absent (h : A.live.lookup addr = none) : FreeStep addr A false A
  | release {A' : Arena δ} (h : Release addr A A') : FreeStep addr A true A'
  | retain {A' : Arena δ} (h : Retain addr A A') : FreeStep addr A false A'

/-- `RecordEvent` for one address. -/
inductive RecordStep (dev : Device δ) (taskId : Int) (user : Nat) (event : DeviceEvent)
    (mem addr : Nat) (A : Arena δ) : Arena δ → Prop where
  | absent (h : A.live.lookup addr = none) : RecordStep dev taskId user event mem addr A A
  | record {p : Nat} {k : AllocatorKey} {d : BufData} (hlive : A.live.lookup addr = some (p, k))
      (hp : A.bufs.get p = some d) :
      RecordStep dev taskId user event mem addr A
        { (if d.isEventNotUsed then A.addUsedByEvent d.size else A).setEvents p
            (d.toEventBase.recordEvent taskId user event) with
          pairs := A.pairs.insert (user, mem)
            (OrdSet.emplace dev.bufAddress p ((A.pairs.lookup (user, mem)).getD [])) }

/-- One turn of the wait loops. -/
inductive WaitStep (taskId : Int) (key : Nat × Nat) (p : Nat) (A : Arena δ) :
    Arena δ → Prop where
  | gone (h : A.bufs.get p = none) : WaitStep taskId key p A A
  | keep {d : BufData} {e : EventBase} (hp : A.bufs.get p = some d)
      (he : (d.toEventBase.waitEvent (Pool.toUInt32 taskId) key.1).2 = e)
      (hused : e.isEventNotUsed = false) : WaitStep taskId key p A (A.setEvents p e)
  | drop {d : BufData} {e : EventBase} (hp : A.bufs.get p = some d)
      (he : (d.toEventBase.waitEvent (Pool.toUInt32 taskId) key.1).2 = e)
      (hquiet : e.isEventNotUsed = true) (hst : d.status ≠ .usedByEvent) :
      WaitStep taskId key p A (subUsedByEvent d.size (erasePair key p (A.setEvents p e)))
  | free {d : BufData} {e : EventBase} {ok : Bool} {A' : Arena δ} (hp : A.bufs.get p = some d)
      (he : (d.toEventBase.waitEvent (Pool.toUInt32 taskId) key.1).2 = e)
      (hquiet : e.isEventNotUsed = true) (hst : d.status = .usedByEvent)
      (hf : FreeStep d.addr
        (eraseAllPairs p (subUsedByEvent d.size (erasePair key p (A.setEvents p e)))) ok A') :
      WaitStep taskId key p A A'

/-- One turn of the sync loop. -/
inductive SyncStep (p : Nat) (A : Arena δ) : Arena δ → Prop where
  | gone (h : A.bufs.get p = none) : SyncStep p A A
  | clear {d : BufData} (hp : A.bufs.get p = some d)
      (h : d.toEventBase.syncAllEvents.1 = false ∨ d.status ≠ .usedByEvent) :
      SyncStep p A (A.setEvents p d.toEventBase.syncAllEvents.2)
  | free {d : BufData} {ok : Bool} {A' : Arena δ} (hp : A.bufs.get p = some d)
      (h : d.toEventBase.syncAllEvents.1 = true) (hst : d.status = .usedByEvent)
      (hf : FreeStep d.addr (A.setEvents p d.toEventBase.syncAllEvents.2) ok A') :
      SyncStep p A A'

/-- A step for each element of a list, in turn. -/
inductive Chained {α : Type} (step : α → Arena δ → Arena δ → Prop) :
    List α → Arena δ → Arena δ → Prop where
  | nil (A : Arena δ) : Chained step [] A A
  | cons {x : α} {xs : List α} {A A' A'' : Arena δ} (h : step x A A')
      (hs : Chained step xs A' A'') : Chained step (x :: xs) A A''

/-- The loop over a copy of one set. -/
def WaitPair (taskId : Int) (key : Nat × Nat) (A A' : Arena δ) : Prop :=
  Chained (WaitStep taskId key) ((A.pairs.lookup key).getD []) A A'

/-- All members of all sets. -/
def carriers (dev : Device δ) (A : Arena δ) : List Nat :=
  (A.pairs.entries.flatMap Sigma.snd).foldl
    (fun acc p => OrdSet.emplace dev.bufAddress p acc) []

/-- `DoSyncAllEvents`. -/
inductive SyncAll (dev : Device δ) (A : Arena δ) : Arena δ → Prop where
  | none (h : A.pairs.entries.isEmpty = true) : SyncAll dev A A
  | all {A' : Arena δ} (hne : A.pairs.entries.isEmpty = false)
      (h : Chained SyncStep (carriers dev A) A A') : SyncAll dev A { A' with pairs := ∅ }

/-- `AllocTensorMem` for an aligned size, with the address it returns. If the
search is exhausted the events are synced and one more attempt is made. -/
inductive AllocStep (dev : Device δ) (vmm : Bool) (size : Nat) (exhausted : Prop)
    (A : Arena δ) : Nat → Arena δ → Prop where
  | fail {A' : Arena δ} (hpath : ReflTransGen (Background dev vmm) A A') :
      AllocStep dev vmm size exhausted A 0 A'
  | hand {p : Nat} {k : AllocatorKey} {A₁ A' : Arena δ} {d : BufData}
      (hpath : ReflTransGen (Background dev vmm) A A₁) (hh : Hand dev size p k A₁ A')
      (hd : A'.bufs.get p = some d) : AllocStep dev vmm size exhausted A d.addr A'
  | syncFail {A₁ A₂ A' : Arena δ} (hex : exhausted)
      (hpath : ReflTransGen (Background dev vmm) A A₁) (hsync : SyncAll dev A₁ A₂)
      (hpath' : ReflTransGen (Background dev vmm) A₂ A') :
      AllocStep dev vmm size exhausted A 0 A'
  | syncHand {p : Nat} {k : AllocatorKey} {A₁ A₂ A₃ A' : Arena δ} {d : BufData}
      (hex : exhausted) (hpath : ReflTransGen (Background dev vmm) A A₁)
      (hsync : SyncAll dev A₁ A₂) (hpath' : ReflTransGen (Background dev vmm) A₂ A₃)
      (hh : Hand dev size p k A₃ A') (hd : A'.bufs.get p = some d) :
      AllocStep dev vmm size exhausted A d.addr A'

/-- What `DoFreeTensorMem` leaves alone: everything about other addresses. -/
structure FreeFrame (addr : Nat) (A A' : Arena δ) : Prop where
  lookup : ∀ a, a ≠ addr → A'.live.lookup a = A.live.lookup a
  kept : ∀ q e, A.bufs.get q = some e → ¬ e.status.isFree → e.addr ≠ addr →
    A'.bufs.get q = some e
  back : ∀ q e, A'.bufs.get q = some e → ¬ e.status.isFree → ∃ e₀, A.bufs.get q = some e₀ ∧
    ¬ e₀.status.isFree ∧ e = { e₀ with status := e.status }
  pairs : A'.pairs = A.pairs
  blocks : A'.blocks = A.blocks
  owns : A'.owns = A.owns

theorem FreeStep.frame {vmm : Bool} {law : DeviceLaw dev} {b₀ addr : Nat} {ok : Bool}
    {A A' : Arena δ} (hb : Base law vmm b₀ A) (h : FreeStep addr A ok A') :
    FreeFrame addr A A' := by
  cases h with
  | absent _ =>
      exact ⟨fun _ _ => rfl, fun _ _ he _ _ => he, fun _ e he hst => ⟨e, he, hst, rfl⟩, rfl,
        rfl, rfl⟩
  | retain hr =>
      cases hr with
      | @mk p k d hl hp hused =>
          obtain ⟨d', hd', ha, hst', _⟩ := hb.live _ _ _ hl
          rw [hp] at hd'
          cases hd'
          refine ⟨fun _ _ => rfl, ?_, ?_, rfl, rfl, rfl⟩
          · intro q e he _ hne
            have hqp : q ≠ p := fun heq => by
              rw [heq, hp] at he
              cases he
              exact hne ha
            show (A.bufs.modify p _).get q = _
            rw [Heap.get_modify_ne _ _ hqp, he]
          · intro q e he hst
            have he : (A.bufs.modify p _).get q = some e := he
            by_cases hqp : q = p
            · subst hqp
              rw [Heap.get_modify_self, hp] at he
              cases he
              exact ⟨d, hp, hst', rfl⟩
            · rw [Heap.get_modify_ne _ _ hqp] at he
              exact ⟨e, he, hst, rfl⟩
  | release hr =>
      cases hr with
      | @mk p k d D hl hp hquiet hD =>
          obtain ⟨d', hd', ha, hst', _⟩ := hb.live _ _ _ hl
          rw [hp] at hd'
          cases hd'
          have hwork := FreeWork.merges hD
          refine ⟨fun a hne => AList.lookup_erase_ne hne, ?_, ?_, rfl, rfl, rfl⟩
          · intro q e he hst hne
            have hqp : q ≠ p := fun heq => by
              rw [heq, hp] at he
              cases he
              exact hne ha
            refine (hwork.live_iff hst).mpr ?_
            rw [Heap.get_modify_ne _ _ hqp, he]
          · intro q e he hst
            have he := (hwork.live_iff hst).mp he
            by_cases hqp : q = p
            · subst hqp
              rw [Heap.get_modify_self, hp] at he
              cases he
              exact absurd (.inl rfl) hst
            · rw [Heap.get_modify_ne _ _ hqp] at he
              exact ⟨e, he, hst, rfl⟩

section Hand

variable {A A' : Arena δ}

/-- A hand-out does not touch the blocks. -/
theorem Hand.blocks {size p : Nat} {k : AllocatorKey} (h : Hand dev size p k A A') :
    A'.blocks = A.blocks ∧ A'.owns = A.owns := by
  cases h with
  | mk ht hd =>
      obtain ⟨d₀, _, _, _, _, _, hblocks, hown⟩ := take_get ht
      unfold enter
      split
      · exact ⟨hblocks, put_owns_eq hown⟩
      · exact ⟨hblocks, put_owns_eq hown⟩

/-- What a hand-out does: one buffer that was free is in use. -/
structure HandFrame (size p : Nat) (k : AllocatorKey) (d₀ : BufData) (A A' : Arena δ) :
    Prop where
  free : A.bufs.get p = some d₀ ∧ d₀.status.isFree
  owns : A.owns k d₀.memBlock
  size : size ≤ d₀.size
  bufs : A'.bufs = A.bufs.modify p fun x => { x with status := .used }
  pairs : A'.pairs = A.pairs
  live : A'.live = if (A.live.lookup d₀.addr).isSome then A.live
    else A.live.insert d₀.addr (p, k)

theorem Hand.frame {size p : Nat} {k : AllocatorKey} (h : Hand dev size p k A A') :
    ∃ d₀, HandFrame size p k d₀ A A' := by
  cases h with
  | @mk s m d ht hd =>
      obtain ⟨d₀, hp, hst, hB, hsize, hm, _, _⟩ := take_get ht
      have hd : d = { d₀ with status := .used } := by
        rw [hm, Heap.get_modify_self, hp] at hd
        cases hd
        rfl
      subst hd
      refine ⟨d₀, ⟨hp, hst⟩, hB, hsize, ?_, ?_, ?_⟩
      · unfold enter
        split <;> exact hm
      · unfold enter
        split <;> rfl
      · unfold enter
        show (if (A.live.lookup d₀.addr).isSome = true then _ else _ : Arena δ).live = _
        split <;> rfl

/-- Buffers in use stay as they are through a hand-out. -/
theorem HandFrame.get {size p : Nat} {k : AllocatorKey} {d₀ : BufData}
    (h : HandFrame size p k d₀ A A') {q : Nat} {d : BufData} (hq : A.bufs.get q = some d)
    (hst : ¬ d.status.isFree) : q ≠ p ∧ A'.bufs.get q = some d := by
  have hne : q ≠ p := fun heq => by
    rw [heq, h.free.1] at hq
    cases hq
    exact hst h.free.2
  exact ⟨hne, by rw [h.bufs, Heap.get_modify_ne _ _ hne, hq]⟩

/-- What a buffer in use after a hand-out was before. -/
theorem HandFrame.get_back {size p : Nat} {k : AllocatorKey} {d₀ : BufData}
    (h : HandFrame size p k d₀ A A') {q : Nat} {d : BufData} (hq : A'.bufs.get q = some d) :
    (q = p ∧ d = { d₀ with status := .used }) ∨ (q ≠ p ∧ A.bufs.get q = some d) := by
  rw [h.bufs] at hq
  by_cases hqp : q = p
  · subst hqp
    rw [Heap.get_modify_self, h.free.1] at hq
    cases hq
    exact .inl ⟨rfl, rfl⟩
  · rw [Heap.get_modify_ne _ _ hqp] at hq
    exact .inr ⟨hqp, hq⟩

end Hand

end Arena

namespace Pool

variable {law : DeviceLaw dev} {b₀ : Nat} {s s' : Pool δ} {k : AllocatorKey}
  {al : MemBufAllocator} {p : Nat} {b : MemBuf}

/-- An operation that keeps the invariant and takes the arena along `step`. -/
structure Does (law : DeviceLaw dev) (b₀ : Nat) (s s' : Pool δ)
    (step : Arena δ → Arena δ → Prop) : Prop where
  inv : Inv law b₀ s'
  vmm : s'.enableVmm = s.enableVmm
  step : step s.arena s'.arena

/-! ## Free -/

/-- A method that changes buffers and sets of one allocator only. -/
theorem arena_putCtx_bufs {c : Ctx (Env δ)} (hal : s.allocator? k = some al)
    (hown : c.alloc.memBlocks = al.memBlocks) (hblocks : c.blocks = s.blocks)
    (henv : c.env = (s.ctx al).env) :
    (s.putCtx k c).arena = { s.arena with bufs := dataOf c.bufs } := by
  have howns : Function.update s.arena.owns k (fun B => B ∈ c.alloc.memBlocks) =
      s.arena.owns := by
    rw [hown, ← Function.update_eq_self k s.arena.owns, Function.update_idem]
    congr 1
    funext B
    exact propext (owns_iff hal B).symm
  rw [arena_putCtx hal]
  show Arena.mk (dataOf c.bufs) (c.blocks.map _)
    (Function.update s.arena.owns k fun B => B ∈ c.alloc.memBlocks) c.env _ _ = _
  rw [howns, hblocks, henv]
  rfl

/-- The map points to buffers in use, in blocks of the allocator it names. -/
theorem Inv.lookup (h : Inv law b₀ s) {addr : Nat}
    (hl : s.addrMemBufAllocators.lookup addr = some (p, k)) :
    ∃ al b, s.allocator? k = some al ∧ s.bufs.get p = some b ∧ b.addr = addr ∧
      ¬ b.status.isFree ∧ b.memBlock ∈ al.memBlocks := by
  obtain ⟨d, hd, ha, hst, al, hal, hB⟩ := h.base.live addr p k hl
  obtain ⟨b, hb, rfl⟩ := dataOf_get_some hd
  exact ⟨al, b, hal, hb, ha, hst, hB⟩

/-- A freed buffer with pending events stays in use. -/
theorem Inv.retain {addr : Nat} (h : Inv law b₀ s)
    (hl : s.addrMemBufAllocators.lookup addr = some (p, k)) (hal : s.allocator? k = some al)
    (hb : s.bufs.get p = some b) (hst : ¬ b.status.isFree) (hB : b.memBlock ∈ al.memBlocks)
    (hev : b.isEventNotUsed = false) :
    Does law b₀ s (s.putCtx k { s.ctx al with
      bufs := s.bufs.modify p fun b => { b with status := .usedByEvent } })
      (Arena.Retain addr) := by
  obtain ⟨lay, hlay⟩ := h.alloc
  have harena := arena_putCtx_bufs (c := { s.ctx al with
    bufs := s.bufs.modify p fun b => { b with status := .usedByEvent } }) hal rfl rfl rfl
  have hdata : dataOf (s.bufs.modify p fun b => { b with status := .usedByEvent }) =
      s.arena.bufs.modify p fun d => { d with status := .usedByEvent } :=
    dataOf_modify (fun _ => rfl) _ _
  dsimp only at harena
  rw [hdata] at harena
  have hret : Arena.Retain addr s.arena (s.putCtx k { s.ctx al with
      bufs := s.bufs.modify p fun b => { b with status := .usedByEvent } }).arena := by
    rw [harena]
    exact .mk hl (dataOf_get hb) hev
  have htouch : AllocInv (s.bufs.modify p fun b => { b with status := .usedByEvent }) s.blocks al
      lay none :=
    (hlay k al hal).touch (g := fun d => { d with status := .usedByEvent }) hb (fun _ => rfl)
      rfl rfl hB hst Arena.not_isFree_usedByEvent
  refine ⟨h.putCtx hlay hal htouch ?_ (h.base.retain hret), putCtx_enableVmm .., hret⟩
  · exact
      { own := fun _ hC => hC
        fresh := fun _ hC => .inl hC
        outside := Outside.modify hb hB hB
        blocksOut := fun _ _ => rfl
        layOut := fun _ _ => rfl
        next := Nat.le_refl _
        eager := rfl }

/-- The pool after `DoFreeTensorMem` has given `p` back to its allocator. -/
def released (addr p : Nat) (k : AllocatorKey) (al : MemBufAllocator) (b : MemBuf)
    (s : Pool δ) : Pool δ :=
  let s' := s.putCtx k (MemBufAllocator.coalesce p .idle (s.ctx al))
  { s' with
    memStat := { s'.memStat with usedSize := subSize s'.memStat.usedSize b.size }
    addrMemBufAllocators := s'.addrMemBufAllocators.erase addr }

theorem Inv.release {addr : Nat} (h : Inv law b₀ s)
    (hl : s.addrMemBufAllocators.lookup addr = some (p, k)) (hal : s.allocator? k = some al)
    (hb : s.bufs.get p = some b) (hst : ¬ b.status.isFree) (hB : b.memBlock ∈ al.memBlocks)
    (hev : b.isEventNotUsed = true) :
    Does law b₀ s (released addr p k al b s) (Arena.Release addr) := by
  obtain ⟨lay, hlay⟩ := h.alloc
  obtain ⟨lay', hco⟩ := MemBufAllocator.coalesce_spec (c := s.ctx al) .idle
    ((hlay k al hal).detach hb hst) hb hB hev (.inl rfl)
  unfold released
  generalize MemBufAllocator.coalesce p .idle (s.ctx al) = c at hco
  have harena := arena_putCtx_bufs hal hco.own hco.blocks hco.env
  obtain ⟨halloc, hflag⟩ := h.putCtx_orderly hlay hal hco.inv hco.ext
  have hvmm := putCtx_enableVmm s k c
  have hbufs : (s.putCtx k c).bufs = c.bufs := rfl
  have hblocks : (s.putCtx k c).blocks = c.blocks := rfl
  generalize s.putCtx k c = s₁ at harena halloc hflag hvmm hbufs hblocks
  have hown : (fun B => B ∈ (s.ctx al).alloc.memBlocks) = s.arena.owns k := by
    funext B
    exact propext (owns_iff hal B).symm
  have hmerges := hco.merges
  rw [hown] at hmerges
  have hrel : Arena.Release addr s.arena ({ s₁ with
      memStat := { s₁.memStat with usedSize := subSize s₁.memStat.usedSize b.size }
      addrMemBufAllocators := s₁.addrMemBufAllocators.erase addr } : Pool δ).arena := by
    have hr := Arena.Release.mk (A := s.arena) hl (dataOf_get hb) hev hmerges
    have heq : ({ s₁ with
        memStat := { s₁.memStat with usedSize := subSize s₁.memStat.usedSize b.size }
        addrMemBufAllocators := s₁.addrMemBufAllocators.erase addr } : Pool δ).arena =
      { s₁.arena with
        live := s₁.arena.live.erase addr
        env := { s₁.arena.env with memStat := { s₁.arena.env.memStat with
          usedSize := subSize s₁.arena.env.memStat.usedSize b.size } } } := rfl
    rw [heq, harena]
    exact hr
  refine ⟨⟨?_, ?_, ?_⟩, hvmm, hrel⟩
  · show Arena.Base law s₁.enableVmm b₀ _
    rw [hvmm]
    exact h.base.release hrel
  · show ∃ lay, ∀ k' al', s₁.allocator? k' = some al' → AllocInv s₁.bufs s₁.blocks al' lay none
    rw [hbufs, hblocks]
    exact halloc
  · show ∀ k' al', s₁.allocator? k' = some al' →
      al'.enableEagerFree = isEager dev s₁.enableVmm k'
    rw [hvmm]
    exact hflag

theorem doFreeTensorMem_spec (h : Inv law b₀ s) (addr : Nat) :
    Does law b₀ s (doFreeTensorMem addr s).2
      fun A A' => Arena.FreeStep addr A (doFreeTensorMem addr s).1 A' := by
  unfold doFreeTensorMem
  cases hl : s.addrMemBufAllocators.lookup addr with
  | none => exact ⟨h, rfl, .absent hl⟩
  | some v =>
      obtain ⟨p, k⟩ := v
      obtain ⟨al, b, hal, hb, _, hst, hB⟩ := h.lookup hl
      have hb' : (s.ctx al).bufs.get p = some b := hb
      simp only [hal, hb]
      cases hev : b.isEventNotUsed with
      | false =>
          simp only [MemBufAllocator.free, hb', hev, Bool.not_false, if_true,
            Bool.false_eq_true, if_false]
          have hr := h.retain hl hal hb hst hB hev
          exact ⟨hr.inv, hr.vmm, .retain hr.step⟩
      | true =>
          simp only [MemBufAllocator.free, hb', hev, Bool.not_true, Bool.false_eq_true,
            if_false, if_true]
          have hr := h.release hl hal hb hst hB hev
          exact ⟨hr.inv, hr.vmm, .release hr.step⟩

/-! ## Events -/

theorem arena_setEvents (s : Pool δ) (p : Nat) (e : EventBase) :
    (s.setEvents p e).arena = s.arena.setEvents p e := by
  have hdata : dataOf (s.bufs.modify p fun b => { b with toEventBase := e }) =
      s.arena.bufs.modify p fun d => { d with toEventBase := e } :=
    dataOf_modify (fun _ => rfl) _ _
  show Arena.mk (dataOf (s.bufs.modify p fun b => { b with toEventBase := e })) _ _ _ _ _ = _
  rw [hdata]
  rfl

theorem Inv.setEvents (h : Inv law 0 s) (hb : s.bufs.get p = some b) {e : EventBase}
    (he : b.status.isFree → e = b.toEventBase) : Inv law 0 (s.setEvents p e) := by
  by_cases hst : b.status.isFree
  · have heq : s.setEvents p e = s := by
      have hbufs : (s.bufs.modify p fun b => { b with toEventBase := e }) = s.bufs := by
        refine Heap.ext (fun r => ?_) rfl
        by_cases hr : r = p
        · rw [hr, Heap.get_modify_self, hb, he hst]
          rfl
        · rw [Heap.get_modify_ne _ _ hr]
      unfold Pool.setEvents
      rw [hbufs]
    rw [heq]
    exact h
  · obtain ⟨k, al, hal, hB⟩ := h.base.owned p b.data (dataOf_get hb) (Nat.zero_le _)
    have hB : b.memBlock ∈ al.memBlocks := hB
    obtain ⟨lay, hlay⟩ := h.alloc
    refine ⟨?_, ⟨lay, fun k' al' hal' => ?_⟩, h.flag⟩
    · rw [arena_setEvents]
      exact h.base.write (f := fun d => { d with toEventBase := e }) (dataOf_get hb) rfl rfl
        (fun hf => absurd hf hst) s.arena.live (fun a v hv => ⟨hv, fun hf => absurd hf hst⟩)
        s.arena.env fun _ _ h => h
    · have hal' : s.allocator? k' = some al' := hal'
      by_cases hk : k' = k
      · subst hk
        rw [hal] at hal'
        cases hal'
        exact (hlay k' al hal).touch (f := fun b => { b with toEventBase := e })
          (g := fun d => { d with toEventBase := e }) hb (fun _ => rfl) rfl rfl hB hst hst
      · refine (hlay k' al' hal').frame (Outside.modify hb hB hB) (fun _ _ => rfl)
          (fun _ _ => rfl) fun C hC hC' => hk ?_
        exact h.base.excl k' k C ((owns_iff hal' C).mpr hC) ((owns_iff hal C).mpr hC')

theorem arena_erasePair (key : Nat × Nat) (p : Nat) (s : Pool δ) :
    (erasePair key p s).arena = Arena.erasePair key p s.arena := by
  unfold erasePair Arena.erasePair
  show _ = match s.streamPairMemBufs.lookup key with
    | none => s.arena
    | some ps => { s.arena with pairs := s.streamPairMemBufs.insert key (ps.erase p) }
  cases s.streamPairMemBufs.lookup key <;> rfl

theorem arena_eraseAllPairs (p : Nat) (s : Pool δ) :
    (eraseAllPairs p s).arena = Arena.eraseAllPairs p s.arena := by
  have hfold : ∀ (keys : List (Nat × Nat)) (s : Pool δ),
      (keys.foldl (fun s key => erasePair key p s) s).arena =
        keys.foldl (fun A key => Arena.erasePair key p A) s.arena := by
    intro keys
    induction keys with
    | nil => exact fun _ => rfl
    | cons key keys ih =>
        intro s
        rw [List.foldl_cons, List.foldl_cons, ih, arena_erasePair]
  exact hfold _ s

/-- Sets and counters are not the business of the invariant. -/
theorem Inv.erasePair (h : Inv law b₀ s) (key : Nat × Nat) (p : Nat) :
    Inv law b₀ (erasePair key p s) := by
  unfold Pool.erasePair
  split
  · exact h
  · exact ⟨h.base.pairs _, h.alloc, h.flag⟩

theorem Inv.eraseAllPairs (h : Inv law b₀ s) (p : Nat) : Inv law b₀ (eraseAllPairs p s) := by
  have hfold : ∀ (keys : List (Nat × Nat)) (s : Pool δ), Inv law b₀ s →
      Inv law b₀ (keys.foldl (fun s key => Pool.erasePair key p s) s) := by
    intro keys
    induction keys with
    | nil => exact fun _ h => h
    | cons key keys ih => exact fun s h => ih _ (h.erasePair key p)
  exact hfold _ s h

theorem Inv.memStat (h : Inv law b₀ s) (st : MemStat) : Inv law b₀ { s with memStat := st } :=
  ⟨h.base.stat _, h.alloc, h.flag⟩

@[simp] theorem erasePair_enableVmm (key : Nat × Nat) (p : Nat) (s : Pool δ) :
    (erasePair key p s).enableVmm = s.enableVmm := by
  unfold erasePair
  split <;> rfl

@[simp] theorem eraseAllPairs_enableVmm (p : Nat) (s : Pool δ) :
    (eraseAllPairs p s).enableVmm = s.enableVmm := by
  have hfold : ∀ (keys : List (Nat × Nat)) (s : Pool δ),
      (keys.foldl (fun s key => erasePair key p s) s).enableVmm = s.enableVmm := by
    intro keys
    induction keys with
    | nil => exact fun _ => rfl
    | cons key keys ih =>
        intro s
        rw [List.foldl_cons, ih, erasePair_enableVmm]
  exact hfold _ s

theorem recordOne_spec (h : Inv law 0 s) (taskId : Int) (user : Nat) (event : DeviceEvent)
    (ma : Nat × Nat) :
    Does law 0 s (recordOne dev taskId user event s ma)
      (Arena.RecordStep dev taskId user event ma.1 ma.2) := by
  unfold recordOne
  cases hl : s.addrMemBufAllocators.lookup ma.2 with
  | none => exact ⟨h, rfl, .absent hl⟩
  | some v =>
      obtain ⟨p, k⟩ := v
      obtain ⟨al, b, hal, hb, _, hst, hB⟩ := h.lookup hl
      simp only [hb]
      generalize hs₁ : (if b.isEventNotUsed then s.addUsedByEvent b.size else s) = s₁
      have hinv₁ : Inv law 0 s₁ := by
        rw [← hs₁]
        split
        · exact h.memStat _
        · exact h
      have hbufs : s₁.bufs = s.bufs := by
        rw [← hs₁]
        split <;> rfl
      have hpairs : s₁.streamPairMemBufs = s.streamPairMemBufs := by
        rw [← hs₁]
        split <;> rfl
      have hvmm : s₁.enableVmm = s.enableVmm := by
        rw [← hs₁]
        split <;> rfl
      have harena : s₁.arena =
          if b.data.isEventNotUsed then s.arena.addUsedByEvent b.data.size else s.arena := by
        rw [← hs₁]
        show _ = if b.isEventNotUsed then _ else _
        split <;> rfl
      have hset := hinv₁.setEvents (p := p) (b := b) (by rw [hbufs]; exact hb)
        (e := b.toEventBase.recordEvent taskId user event) fun hf => absurd hf hst
      refine ⟨⟨hset.base.pairs _, hset.alloc, hset.flag⟩, hvmm, ?_⟩
      have hstep : Arena.RecordStep dev taskId user event ma.1 ma.2 s.arena _ :=
        .record hl (dataOf_get hb)
      rw [← harena] at hstep
      have hfin := arena_setEvents s₁ p (b.toEventBase.recordEvent taskId user event)
      have heq : ({ s₁.setEvents p (b.toEventBase.recordEvent taskId user event) with
          streamPairMemBufs := s₁.streamPairMemBufs.insert (user, ma.1)
            (OrdSet.emplace dev.bufAddress p
              ((s₁.streamPairMemBufs.lookup (user, ma.1)).getD [])) } : Pool δ).arena =
        { (s₁.setEvents p (b.toEventBase.recordEvent taskId user event)).arena with
          pairs := s.arena.pairs.insert (user, ma.1) (OrdSet.emplace dev.bufAddress p
            ((s.arena.pairs.lookup (user, ma.1)).getD [])) } := by
        rw [hpairs]
        rfl
      rw [heq, hfin]
      exact hstep

theorem waitOne_spec (h : Inv law 0 s) (taskId : Int) (key : Nat × Nat) (p : Nat) :
    Does law 0 s (waitOne taskId key s p) (Arena.WaitStep taskId key p) := by
  unfold waitOne
  cases hb : s.bufs.get p with
  | none => exact ⟨h, rfl, .gone (by simp [arena, dataOf, hb])⟩
  | some b =>
      dsimp only
      have hd : s.arena.bufs.get p = some b.data := dataOf_get hb
      generalize he : (b.toEventBase.waitEvent (toUInt32 taskId) key.1).2 = e
      have hset : Inv law 0 (s.setEvents p e) := h.setEvents hb fun hf => by
        rw [← he]
        exact EventBase.waitEvent_of_isEventNotUsed
          (h.base.quiet p b.data hd (Nat.zero_le _) hf) _ _
      cases hq : e.isEventNotUsed with
      | false =>
          simp only [Bool.false_eq_true, if_false]
          refine ⟨hset, rfl, ?_⟩
          rw [arena_setEvents]
          exact .keep hd he hq
      | true =>
          simp only [if_true]
          have hsub : Inv law 0 ((erasePair key p (s.setEvents p e)).subUsedByEvent b.size) :=
            (hset.erasePair key p).memStat _
          have harena : ((erasePair key p (s.setEvents p e)).subUsedByEvent b.size).arena =
              Arena.subUsedByEvent b.data.size
                (Arena.erasePair key p (s.arena.setEvents p e)) := by
            rw [← arena_setEvents, ← arena_erasePair]
            rfl
          have hvmm : ((erasePair key p (s.setEvents p e)).subUsedByEvent b.size).enableVmm =
              s.enableVmm := erasePair_enableVmm ..
          split
          · rename_i hst
            have hf := doFreeTensorMem_spec (hsub.eraseAllPairs p) b.addr
            refine ⟨hf.inv, ?_, ?_⟩
            · rw [hf.vmm, eraseAllPairs_enableVmm, hvmm]
            · have hstep := hf.step
              rw [arena_eraseAllPairs, harena] at hstep
              exact .free hd he hq hst hstep
          · rename_i hst
            refine ⟨hsub, hvmm, ?_⟩
            rw [harena]
            exact .drop hd he hq hst

theorem syncOne_spec (h : Inv law 0 s) (p : Nat) :
    Does law 0 s (syncOne s p) (Arena.SyncStep p) := by
  unfold syncOne
  cases hb : s.bufs.get p with
  | none => exact ⟨h, rfl, .gone (by simp [arena, dataOf, hb])⟩
  | some b =>
      dsimp only
      have hd : s.arena.bufs.get p = some b.data := dataOf_get hb
      have hset : Inv law 0 (s.setEvents p b.toEventBase.syncAllEvents.2) :=
        h.setEvents hb fun hf => by
          have hquiet : b.toEventBase.isEventNotUsed = true :=
            h.base.quiet p b.data hd (Nat.zero_le _) hf
          rw [EventBase.syncAllEvents_of_isEventNotUsed hquiet]
      have harena := arena_setEvents s p b.toEventBase.syncAllEvents.2
      split
      · rename_i hcond
        simp only [Bool.and_eq_true, decide_eq_true_eq] at hcond
        have hf := doFreeTensorMem_spec hset b.addr
        have hstep := hf.step
        rw [harena] at hstep
        exact ⟨hf.inv, hf.vmm, .free hd hcond.1 hcond.2 hstep⟩
      · rename_i hcond
        refine ⟨hset, rfl, ?_⟩
        rw [harena]
        refine .clear hd ?_
        by_cases hst : b.status = .usedByEvent
        · refine .inl ?_
          have hcond : ¬ (b.toEventBase.syncAllEvents.1 && decide (b.status = .usedByEvent)) =
            true := hcond
          show b.toEventBase.syncAllEvents.1 = false
          simpa [hst] using hcond
        · exact .inr hst

/-- A loop over a list, one step for each element. -/
theorem does_foldl (law : DeviceLaw dev) {α : Type} {f : Pool δ → α → Pool δ}
    {step : α → Arena δ → Arena δ → Prop}
    (hf : ∀ s x, Inv law b₀ s → Does law b₀ s (f s x) (step x)) (xs : List α) :
    ∀ s, Inv law b₀ s → Does law b₀ s (xs.foldl f s) (Arena.Chained step xs) := by
  induction xs with
  | nil => exact fun s h => ⟨h, rfl, .nil _⟩
  | cons x xs ih =>
      intro s h
      have h₁ := hf s x h
      have h₂ := ih (f s x) h₁.inv
      exact ⟨h₂.inv, h₂.vmm.trans h₁.vmm, .cons h₁.step h₂.step⟩

theorem recordEvent_spec (h : Inv law 0 s) (taskId : Int) (user : Nat)
    (mas : List (Nat × Nat)) (event : DeviceEvent) :
    Does law 0 s (recordEvent dev taskId user mas event s)
      (Arena.Chained (fun ma => Arena.RecordStep dev taskId user event ma.1 ma.2) mas) :=
  does_foldl law (fun _ ma h => recordOne_spec h taskId user event ma) mas s h

theorem waitPair_spec (h : Inv law 0 s) (taskId : Int) (key : Nat × Nat) :
    Does law 0 s (waitPair taskId s key) (Arena.WaitPair taskId key) := by
  have hf := does_foldl law (fun _ p h => waitOne_spec h taskId key p)
    ((s.streamPairMemBufs.lookup key).getD []) s h
  exact ⟨hf.inv, hf.vmm, hf.step⟩

theorem waitEvent_spec (h : Inv law 0 s) (taskId : Int) (user mem : Nat) :
    Does law 0 s (waitEvent taskId user mem s).2 (Arena.WaitPair taskId (user, mem)) := by
  unfold waitEvent
  cases hl : s.streamPairMemBufs.lookup (user, mem) with
  | none =>
      refine ⟨h, rfl, ?_⟩
      unfold Arena.WaitPair
      rw [show s.arena.pairs.lookup (user, mem) = none from hl]
      exact .nil _
  | some ps => exact waitPair_spec h taskId (user, mem)

theorem waitEventOnMemoryStream_spec (h : Inv law 0 s) (taskId : Int) (mem : Nat)
    (order : List (Nat × Nat)) :
    Does law 0 s (waitEventOnMemoryStream taskId mem order s)
      (Arena.Chained (Arena.WaitPair taskId)
        (order.filter fun key => decide (key.2 = mem))) :=
  does_foldl law (fun _ key h => waitPair_spec h taskId key) _ s h

theorem doSyncAllEvents_spec (h : Inv law 0 s) :
    Does law 0 s (doSyncAllEvents dev s).2 (Arena.SyncAll dev) := by
  unfold doSyncAllEvents
  split
  · rename_i hempty
    exact ⟨h, rfl, .none hempty⟩
  · rename_i hne
    have hf := does_foldl law (fun _ p h => syncOne_spec h p)
      (carryEventMemBufs dev s) s h
    refine ⟨⟨hf.inv.base.pairs _, hf.inv.alloc, hf.inv.flag⟩, hf.vmm, ?_⟩
    exact Arena.SyncAll.all (A := s.arena) (Bool.eq_false_iff.mpr hne) hf.step

/-! ## Alloc -/

/-- A found buffer is counted and entered into the map. -/
theorem Found.hand {size p : Nat} {s₁ : Pool δ} (h : Inv law b₀ s)
    (hf : Found law b₀ size p k s s₁) :
    ∃ A b, s₁.bufs.get p = some b ∧ (countUsed p s₁).bufs.get p = some b ∧
      ReflTransGen (Arena.Background dev s.enableVmm) s.arena A ∧
      Does law b₀ s (emplaceAddr b.addr (p, k) (countUsed p s₁))
        (fun _ A' => Arena.Hand dev size p k A A' ∧ A'.bufs.get p = some b.data) := by
  obtain ⟨A, s₂, m, hpath, ht, harena⟩ := hf.path
  obtain ⟨d₀, hp, hst, hB, hsize, hm, _, hown⟩ := Arena.take_get ht
  have hbufs : dataOf s₁.bufs = m.bufs := congrArg Arena.bufs harena
  obtain ⟨b, hb, hbd⟩ := dataOf_get_some
    (show (dataOf s₁.bufs).get p = some { d₀ with status := .used } by
      rw [hbufs, hm, Heap.get_modify_self, hp]
      rfl)
  have hmb : m.bufs.get p = some b.data := by
    rw [← hbufs]
    exact dataOf_get hb
  have hcount : countUsed p s₁ = { s₁ with memStat :=
      ({ s₁.memStat with usedSize := addSize s₁.memStat.usedSize b.size }).updatePeakSize } := by
    unfold countUsed
    rw [hb]
  have hcarena : (countUsed p s₁).arena = (A.put k m).countUsed b.data.size := by
    rw [hcount, ← harena]
    rfl
  have hent : (emplaceAddr b.addr (p, k) (countUsed p s₁)).arena =
      ((A.put k m).countUsed b.data.size).enter b.data.addr (p, k) := by
    rw [← hcarena]
    unfold emplaceAddr Arena.enter
    show _ = if ((countUsed p s₁).addrMemBufAllocators.lookup b.addr).isSome = true then _ else _
    split <;> rfl
  have hhand : Arena.Hand dev size p k A
      (emplaceAddr b.addr (p, k) (countUsed p s₁)).arena := by
    rw [hent]
    exact .mk ht hmb
  have hvmm : (emplaceAddr b.addr (p, k) (countUsed p s₁)).enableVmm = s.enableVmm := by
    rw [hcount]
    unfold emplaceAddr
    split <;> exact hf.vmm
  refine ⟨A, b, hb, by rw [hcount]; exact hb, hpath, ⟨⟨?_, ?_, ?_⟩, hvmm, hhand, ?_⟩⟩
  · rw [hvmm]
    exact (h.base.path hpath).hand hhand
  · have halloc := hf.inv.alloc
    rw [hcount]
    unfold emplaceAddr
    split <;> exact halloc
  · have hflag := hf.inv.flag
    rw [hcount]
    unfold emplaceAddr
    split <;> exact hflag
  · rw [hent]
    unfold Arena.enter
    split <;> exact hmb

/-- The events are synced when no buffer is found otherwise. With `b₀` above
`0` that is harmless only while no set holds a buffer. -/
theorem sync_in_alloc (h : Inv law b₀ s)
    (hb₀ : b₀ = 0 ∨ s.streamPairMemBufs.entries.isEmpty = true) :
    Does law b₀ s (doSyncAllEvents dev s).2 (Arena.SyncAll dev) := by
  rcases hb₀ with rfl | hempty
  · exact doSyncAllEvents_spec h
  · unfold doSyncAllEvents
    rw [if_pos hempty]
    exact ⟨h, rfl, .none hempty⟩

/-- The search for a buffer reaches its end. -/
def Exhausts (dev : Device δ) (size : Nat) (fromPersistentMem : Bool) (streamId : Nat)
    (s : Pool δ) : Prop :=
  ∃ k s₁, findMemBuf dev size fromPersistentMem streamId s = some (.exhausted k, s₁)

theorem allocTensorMem_spec {size streamId addr : Nat} {fromPersistentMem : Bool}
    (h : Inv law b₀ s) (hb₀ : b₀ = 0 ∨ s.streamPairMemBufs.entries.isEmpty = true)
    (hres : allocTensorMem dev size fromPersistentMem streamId s = some (addr, s')) :
    Does law b₀ s s' (fun A A' => Arena.AllocStep dev s.enableVmm (alignMemorySize size)
      (Exhausts dev (alignMemorySize size) fromPersistentMem streamId s) A addr A') := by
  obtain ⟨⟨r, s₁⟩, hmem, hres⟩ := Option.bind_eq_some_iff.mp hres
  obtain ⟨⟨a, s₂⟩, hfind, hmem⟩ := Option.bind_eq_some_iff.mp hmem
  have hspec := findMemBuf_spec h hfind
  cases a with
  | found p k =>
      cases hmem
      obtain ⟨A, b, _, hget, hpath, hd⟩ := Found.hand h hspec
      simp only [hget, Option.map_some, Option.getD_some] at hres
      cases hres
      exact ⟨hd.inv, hd.vmm, .hand hpath hd.step.1 hd.step.2⟩
  | syncFailed =>
      cases hmem
      cases hres
      exact ⟨hspec.inv, hspec.vmm, .fail hspec.path⟩
  | exhausted k =>
      have hspec : Quiet law b₀ s s₂ := hspec
      have hcalm := Arena.Calm.of_path hspec.path
      have hb₂ : b₀ = 0 ∨ s₂.streamPairMemBufs.entries.isEmpty = true := by
        rw [show s₂.streamPairMemBufs = s.streamPairMemBufs from hcalm.pairs]
        exact hb₀
      have hsync := sync_in_alloc hspec.inv hb₂
      obtain ⟨⟨p, s₃⟩, hm, hmem⟩ := Option.bind_eq_some_iff.mp hmem
      obtain ⟨hnone, hsome⟩ := malloc_spec hsync.inv hm
      have hvmm₂ := hsync.vmm.trans hspec.vmm
      cases p with
      | none =>
          cases hmem
          cases hres
          have hq := hnone rfl
          have hpath := hq.path
          rw [hvmm₂] at hpath
          exact ⟨hq.inv, hq.vmm.trans hvmm₂,
            .syncFail ⟨k, s₂, hfind⟩ hspec.path hsync.step hpath⟩
      | some p =>
          cases hmem
          obtain ⟨A, b, _, hget, hpath, hd⟩ := Found.hand hsync.inv (hsome p rfl)
          simp only [hget, Option.map_some, Option.getD_some] at hres
          cases hres
          rw [hvmm₂] at hpath
          exact ⟨hd.inv, hd.vmm.trans hvmm₂, .syncHand ⟨k, s₂, hfind⟩ hspec.path hsync.step hpath
            hd.step.1 hd.step.2⟩

theorem freeTensorMem_spec (h : Inv law b₀ s) (addr : Nat) :
    Does law b₀ s (freeTensorMem addr s) (fun A A' => ∃ ok, Arena.FreeStep addr A ok A') := by
  have hf := doFreeTensorMem_spec h addr
  exact ⟨hf.inv, hf.vmm, _, hf.step⟩

/-- A new pool is in order. -/
theorem Inv.init (law : DeviceLaw dev) (enableVmm enableTiny : Bool) (d : δ) :
    Inv law 0 (Pool.init enableVmm enableTiny d) := by
  have hal : ∀ k al, (Pool.init enableVmm enableTiny d).allocator? k = some al →
      k = .tiny ∧ al = { enableEagerFree := false, isPersistent := false, streamId := 0 } := by
    intro k al hal
    cases k with
    | tiny =>
        simp only [allocator?, Pool.init] at hal
        split at hal
        · cases hal
          exact ⟨rfl, rfl⟩
        · cases hal
    | stream b n =>
        simp only [allocator?, Pool.init] at hal
        cases hal
  have howns : ∀ k B, ¬ (Pool.init enableVmm enableTiny d).arena.owns k B := by
    rintro k B ⟨al, h, hB⟩
    obtain ⟨_, rfl⟩ := hal k al h
    cases hB
  refine ⟨⟨Nat.zero_le _, ?_, ?_, ?_, fun _ _ h => (by cases h), fun _ _ h _ => (by cases h),
    fun _ _ h _ _ => (by cases h), fun _ _ _ h => (by cases h)⟩, ⟨fun _ => [], ?_⟩, ?_⟩
  · exact fun k B hB => absurd hB (howns k B)
  · exact fun k _ B hB => absurd hB (howns k B)
  · exact fun k B hB => absurd hB (howns k B)
  · intro k al h
    obtain ⟨_, rfl⟩ := hal k al h
    exact allocInv_empty _ rfl rfl rfl
  · intro k al h
    obtain ⟨rfl, rfl⟩ := hal k al h
    rfl

end Pool

end Ccbase.Memory
