import Ccbase.Memory.Pool
import Ccbase.Memory.Malloc

/-!
# The pool as an arena of buffers

The abstract view of the pool: the buffers without links and sets, which
allocator owns which block, the address map, the sets of event-carrying
buffers, and the environment. On it the pool takes four kinds of steps that
concern memory: work on free buffers in the background, handing out a free
buffer, taking a buffer back, and keeping a freed buffer for the events on it.

`DeviceLaw` is what the pool relies on from the device: a region that is handed
out overlaps no region of the same kind that is still held. The two kinds are
plain device memory and memory for eager free.
-/

namespace Ccbase.Memory

open Ccbase.Lib Relation

variable {δ : Type}

/-- Two address ranges, given by start and length, have no byte in common. -/
def Apart (r r' : Nat × Nat) : Prop := r.1 + r.2 ≤ r'.1 ∨ r'.1 + r'.2 ≤ r.1

/-- The two ways to ask for a region. -/
def Device.allocMem (dev : Device δ) (eager : Bool) (n : Nat) (d : δ) :
    Option ((Nat × Nat) × δ) :=
  if eager then dev.allocDeviceMemByEagerFree n d else dev.allocDeviceMem n d

/-- The regions of a device. `held eager d` are those of one kind that the
device has handed out and not taken back. -/
structure DeviceLaw (dev : Device δ) where
  held : Bool → δ → List (Nat × Nat)
  fresh : ∀ eager n d size addr d', dev.allocMem eager n d = some ((size, addr), d') →
    size ≠ 0 → ∀ r ∈ held eager d, Apart (addr, size) r
  given : ∀ eager n d size addr d', dev.allocMem eager n d = some ((size, addr), d') →
    size ≠ 0 → (addr, size) ∈ held eager d'
  kept : ∀ eager n d r d', dev.allocMem eager n d = some (r, d') →
    ∀ b, ∀ r ∈ held b d, r ∈ held b d'
  eagerFree : ∀ addr size d n d', dev.freeDeviceMemByEagerFree addr size d = some (n, d') →
    ∀ b, ∀ r ∈ held b d, r ∈ held b d'
  mmap : ∀ size addr d n d', dev.mmapDeviceMem size addr d = some (n, d') →
    ∀ b, ∀ r ∈ held b d, r ∈ held b d'
  sync : ∀ d ok d', dev.syncAllStreams d = some (ok, d') → ∀ b, ∀ r ∈ held b d, r ∈ held b d'

/-- A region overlaps no region that is held, of either kind. -/
def DeviceLaw.Disjoint {dev : Device δ} (law : DeviceLaw dev) : Prop :=
  ∀ eager n d size addr d', dev.allocMem eager n d = some ((size, addr), d') → size ≠ 0 →
    ∀ b, ∀ r ∈ law.held b d, Apart (addr, size) r

/-- Regions lie in the address space, with the address one past their end. -/
def Device.Bounded (dev : Device δ) : Prop :=
  ∀ eager n d size addr d', dev.allocMem eager n d = some ((size, addr), d') → size ≠ 0 →
    addr + size < sizeBound

/-- The kind of memory an allocator asks for. -/
def isEager (dev : Device δ) (enableVmm : Bool) : AllocatorKey → Bool
  | .tiny => false
  | .stream _ _ => dev.isEnableEagerFree || enableVmm

structure Arena (δ : Type) where
  bufs : Heap BufData
  blocks : Heap (Nat × Nat)
  owns : AllocatorKey → Nat → Prop
  env : Env δ
  live : UMap Nat (Nat × AllocatorKey)
  pairs : UMap (Nat × Nat) (List Nat)

namespace Arena

/-- What one allocator sees of the arena. -/
def core (A : Arena δ) (k : AllocatorKey) : Core (Env δ) :=
  { bufs := A.bufs, blocks := A.blocks, own := A.owns k, env := A.env }

/-- The arena after a method of one allocator. -/
def put (A : Arena δ) (k : AllocatorKey) (m : Core (Env δ)) : Arena δ :=
  { A with bufs := m.bufs, blocks := m.blocks, owns := Function.update A.owns k m.own
           env := m.env }

/-- `mem_stat_` after some bytes have been declared eagerly free. -/
def countEager (A : Arena δ) (n : Nat) : Arena δ :=
  { A with env := { A.env with memStat := { A.env.memStat with
      eagerFreeSize := addSize A.env.memStat.eagerFreeSize n } } }

/-- `mem_stat_` after a buffer has been handed out. -/
def countUsed (A : Arena δ) (n : Nat) : Arena δ :=
  { A with env := { A.env with memStat :=
      ({ A.env.memStat with usedSize := addSize A.env.memStat.usedSize n }).updatePeakSize } }

/-- An address is entered unless it is there already. -/
def enter (A : Arena δ) (addr : Nat) (v : Nat × AllocatorKey) : Arena δ :=
  if (A.live.lookup addr).isSome then A else { A with live := A.live.insert addr v }

variable (dev : Device δ) (vmm : Bool)

/-- The eager free of all stream allocators. -/
inductive SweepsAll (A : Arena δ) : Nat → Arena δ → Prop where
  | refl : SweepsAll A 0 A
  | tail {n n' : Nat} {A' : Arena δ} {k : AllocatorKey} {s : Pool δ} {m : Core (Env δ)}
      (h : SweepsAll A n A') (hk : k ≠ .tiny)
      (hm : Sweeps (Pool.callbacks dev s k) (A'.core k) n' m) : SweepsAll A (n + n') (A'.put k m)

/-- One step of the pool that concerns free buffers and the device only. -/
inductive Background (A : Arena δ) : Arena δ → Prop where
  | churn {k : AllocatorKey} {s : Pool δ} {m : Core (Env δ)} (hs : s.enableVmm = vmm)
      (h : Churn (Pool.callbacks dev s k) (isEager dev vmm k) (A.core k) m) :
      Background A (A.put k m)
  | sweep {n : Nat} {A' : Arena δ} (h : SweepsAll dev A n A') :
      Background A (A'.countEager (n % sizeBound))
  | sync {ok : Bool} {d : δ} (h : dev.syncAllStreams A.env.device = some (ok, d)) :
      Background A { A with env := { A.env with device := d } }

/-- A free buffer `p` of at least `size` bytes is handed out, counted, and
entered into the address map. -/
inductive Hand (size p : Nat) (k : AllocatorKey) (A : Arena δ) : Arena δ → Prop where
  | mk {s : Pool δ} {m : Core (Env δ)} {d : BufData}
      (h : Take (Pool.callbacks dev s k) size p (A.core k) m) (hd : m.bufs.get p = some d) :
      Hand size p k A (((A.put k m).countUsed d.size).enter d.addr (p, k))

/-- The buffer at `addr` is taken back and merged with its neighbours. -/
inductive Release (addr : Nat) (A : Arena δ) : Arena δ → Prop where
  | mk {p : Nat} {k : AllocatorKey} {d : BufData} {D : Heap BufData}
      (hlive : A.live.lookup addr = some (p, k)) (hp : A.bufs.get p = some d)
      (hquiet : d.isEventNotUsed = true)
      (hD : ReflTransGen (Merge (A.owns k))
        (A.bufs.modify p fun x => { x with status := .idle }) D) :
      Release addr A
        { A with
          bufs := D
          live := A.live.erase addr
          env := { A.env with memStat := { A.env.memStat with
            usedSize := subSize A.env.memStat.usedSize d.size } } }

/-- The buffer at `addr` has been freed but carries events. -/
inductive Retain (addr : Nat) (A : Arena δ) : Arena δ → Prop where
  | mk {p : Nat} {k : AllocatorKey} {d : BufData}
      (hlive : A.live.lookup addr = some (p, k)) (hp : A.bufs.get p = some d)
      (hused : d.isEventNotUsed = false) :
      Retain addr A
        { A with bufs := A.bufs.modify p fun x => { x with status := .usedByEvent } }

end Arena

namespace Pool

/-- The arena of a pool. -/
def arena (s : Pool δ) : Arena δ where
  bufs := dataOf s.bufs
  blocks := s.blocks.map MemBlock.span
  owns k B := ∃ al, s.allocator? k = some al ∧ B ∈ al.memBlocks
  env := { memStat := s.memStat, device := s.device }
  live := s.addrMemBufAllocators
  pairs := s.streamPairMemBufs

variable {s : Pool δ} {k : AllocatorKey} {al : MemBufAllocator}

theorem allocator?_setAllocator (hal : s.allocator? k = some al) (al' : MemBufAllocator)
    (k' : AllocatorKey) :
    (s.setAllocator k al').allocator? k' =
      if k' = k then some al' else s.allocator? k' := by
  cases k with
  | tiny =>
      cases k' with
      | tiny =>
          simp only [allocator?] at hal
          simp [allocator?, setAllocator, hal]
      | stream b n => simp [allocator?, setAllocator]
  | stream b n =>
      cases k' with
      | tiny => simp [allocator?, setAllocator]
      | stream b' n' =>
          simp only [allocator?] at hal
          simp only [allocator?, setAllocator, OrdMap.find?_modify, hal, Option.map_some]
          by_cases heq : (b', n') = (b, n)
          · cases heq
            simp
          · rw [if_neg (show toLex (b', n') ≠ toLex (b, n) from heq), if_neg]
            intro h
            cases h
            exact heq rfl

theorem allocator?_putCtx (hal : s.allocator? k = some al) (c : Ctx (Env δ))
    (k' : AllocatorKey) :
    (s.putCtx k c).allocator? k' = if k' = k then some c.alloc else s.allocator? k' := by
  rw [← allocator?_setAllocator hal c.alloc k']
  cases k' <;> rfl

theorem core_arena (hal : s.allocator? k = some al) :
    s.arena.core k = (s.ctx al).core := by
  have hown : s.arena.owns k = fun B => B ∈ al.memBlocks := by
    funext B
    show (∃ al', s.allocator? k = some al' ∧ B ∈ al'.memBlocks) = _
    simp [hal]
  show Core.mk _ _ (s.arena.owns k) _ = _
  rw [hown]
  rfl

theorem arena_putCtx (hal : s.allocator? k = some al) (c : Ctx (Env δ)) :
    (s.putCtx k c).arena = s.arena.put k c.core := by
  have hown : (s.putCtx k c).arena.owns = Function.update s.arena.owns k c.core.own := by
    funext k' B
    show (∃ al', (s.putCtx k c).allocator? k' = some al' ∧ B ∈ al'.memBlocks) = _
    rw [allocator?_putCtx hal]
    by_cases hk : k' = k
    · subst hk
      simp [Ctx.core]
    · simp only [hk, if_false, Function.update_of_ne hk]
      rfl
  have hlive : (s.putCtx k c).addrMemBufAllocators = s.addrMemBufAllocators := by
    cases k <;> rfl
  have hpairs : (s.putCtx k c).streamPairMemBufs = s.streamPairMemBufs := by
    cases k <;> rfl
  show Arena.mk _ _ (s.putCtx k c).arena.owns _ (s.putCtx k c).addrMemBufAllocators
    (s.putCtx k c).streamPairMemBufs = _
  rw [hown, hlive, hpairs]
  rfl

@[simp] theorem putCtx_enableVmm (s : Pool δ) (k : AllocatorKey) (c : Ctx (Env δ)) :
    (s.putCtx k c).enableVmm = s.enableVmm := by
  cases k <;> rfl

/-! ## The expanders -/

/-- The statistics after a region of `size` bytes has arrived; `eager` regions
are counted even before the block is made. -/
def grow (eager : Bool) (size : Nat) (st : MemStat) : MemStat :=
  if eager then { st with eagerFreeSize := addSize st.eagerFreeSize size } else st

/-- An expander asks the device once, or finds that there is not enough
memory. -/
theorem memBlockExpander_cases (dev : Device δ) {size : Nat} {e e' : Env δ}
    {r : Option MemBlock}
    (h : (callbacks dev s k).memBlockExpander size e = some (r, e')) :
    (r = none ∧ e' = e) ∨
    ∃ n size' addr d', dev.allocMem (isEager dev s.enableVmm k) n e.device =
        some ((size', addr), d') ∧
      ((size' = 0 ∧ r = none ∧
          e' = { memStat := grow (isEager dev s.enableVmm k) size' e.memStat, device := d' }) ∨
        (size' ≠ 0 ∧ ∃ sid, r = some { size := size', addr := addr, streamId := sid } ∧
          e' = { memStat := { grow (isEager dev s.enableVmm k) size' e.memStat with
                    allocSize := addSize e.memStat.allocSize size' }
                 device := d' })) := by
  cases k with
  | tiny =>
      obtain ⟨⟨⟨size', addr⟩, d'⟩, hdev, h⟩ := Option.bind_eq_some_iff.mp h
      refine .inr ⟨_, size', addr, d', hdev, ?_⟩
      simp only [newMemBlock] at h
      split at h
      · cases h
        exact .inl ⟨by assumption, rfl, rfl⟩
      · cases h
        exact .inr ⟨by assumption, _, rfl, rfl⟩
  | stream b n =>
      obtain ⟨blockSize, hcal, h⟩ := Option.bind_eq_some_iff.mp h
      split at h
      · cases h
        exact .inl ⟨rfl, rfl⟩
      · split at h
        · rename_i heager
          obtain ⟨⟨⟨size', addr⟩, d'⟩, hdev, h⟩ := Option.bind_eq_some_iff.mp h
          refine .inr ⟨max blockSize (dev.totalMemSize e.device), size', addr, d', ?_, ?_⟩
          · simp only [Device.allocMem, isEager, heager, if_true]
            exact hdev
          · simp only [isEager, grow, heager, if_true]
            simp only [newMemBlock] at h
            split at h
            · cases h
              exact .inl ⟨by assumption, rfl, rfl⟩
            · cases h
              exact .inr ⟨by assumption, _, rfl, rfl⟩
        · rename_i heager
          obtain ⟨⟨⟨size', addr⟩, d'⟩, hdev, h⟩ := Option.bind_eq_some_iff.mp h
          refine .inr ⟨blockSize, size', addr, d', ?_, ?_⟩
          · simp only [Device.allocMem, isEager, heager]
            exact hdev
          · simp only [isEager, grow, heager]
            simp only [newMemBlock] at h
            split at h
            · cases h
              exact .inl ⟨by assumption, rfl, rfl⟩
            · cases h
              exact .inr ⟨by assumption, _, rfl, rfl⟩

theorem memMapper_eq (dev : Device δ) {size addr n : Nat} {e e' : Env δ}
    (h : (callbacks dev s k).memMapper size addr e = some (n, e')) :
    ∃ d', dev.mmapDeviceMem size addr e.device = some (n, d') ∧
      e' = { memStat := { e.memStat with
               eagerFreeSize := subSize e.memStat.eagerFreeSize size }
             device := d' } := by
  obtain ⟨⟨n', d'⟩, hdev, h⟩ := Option.bind_eq_some_iff.mp h
  cases h
  exact ⟨d', hdev, rfl⟩

theorem memEagerFreer_eq (dev : Device δ) {size addr n : Nat} {e e' : Env δ}
    (h : (callbacks dev s k).memEagerFreer addr size e = some (n, e')) :
    ∃ d', dev.freeDeviceMemByEagerFree addr size e.device = some (n, d') ∧
      e' = { e with device := d' } := by
  obtain ⟨⟨n', d'⟩, hdev, h⟩ := Option.bind_eq_some_iff.mp h
  cases h
  exact ⟨d', hdev, rfl⟩

end Pool

end Ccbase.Memory
