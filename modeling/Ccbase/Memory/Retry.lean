import Ccbase.Memory.Coalesced

/-!
# What a failed allocation leaves behind

`AllocTensorMem` looks for a buffer in the allocator of the request, for persistent memory also in
that of common memory, then after an eager free, in a new block, and last after the events have
been synced. When all of that fails, the allocator that was tried last holds no idle buffer with
room for the request. The allocator of the request itself is not tried again behind the events,
so memory that they release there goes unseen.
-/

namespace Ccbase.Memory

open Ccbase.Lib Relation

variable {ε δ : Type} {dev : Device δ}

/-! ## One allocator -/

namespace MemBufAllocator

variable {c c' : Ctx ε} {cb : Callbacks ε} {lay : Nat → List Nat} {p size : Nat} {b : MemBuf}

/-- No idle buffer of the allocator has room for `size` bytes. -/
def NoFit (size : Nat) (c : Ctx ε) : Prop :=
  ∀ p ∈ c.alloc.freeMemBufs, ∀ b, c.bufs.get p = some b → b.size < size

/-- An idle candidate is always taken. -/
theorem mapAndSplitMemBuf_idle {r : Option Nat} (hb : c.bufs.get p = some b)
    (hst : b.status = .idle) (hres : mapAndSplitMemBuf cb p size c = some (r, c')) :
    r = some p := by
  unfold mapAndSplitMemBuf at hres
  rw [hb] at hres
  dsimp only at hres
  rw [if_neg (by rw [hst]; decide)] at hres
  cases hres
  rfl

/-- A candidate that cannot be mapped goes back to the eagerly freed ones. -/
theorem mapAndSplitMemBuf_noFit (h : NoFit size c)
    (hres : mapAndSplitMemBuf cb p size c = some (none, c')) : NoFit size c' := by
  unfold mapAndSplitMemBuf at hres
  split at hres
  · cases hres
    exact h
  · split at hres
    · obtain ⟨⟨n, env⟩, -, hres⟩ := Option.bind_eq_some_iff.mp hres
      dsimp only at hres
      split at hres
      · cases hres
        exact h
      · cases hres
    · cases hres

theorem mallocExpandBlock_noFit (h : NoFit size c)
    (hinv : AllocInv c.bufs c.blocks c.alloc lay none)
    (hres : mallocExpandBlock cb size c = some (none, c')) : NoFit size c' := by
  unfold mallocExpandBlock expandBlock at hres
  obtain ⟨⟨B, c₁⟩, hexp, hres⟩ := Option.bind_eq_some_iff.mp hres
  obtain ⟨⟨blk?, env⟩, -, hexp⟩ := Option.bind_eq_some_iff.mp hexp
  cases blk? with
  | none =>
      cases hexp
      cases hres
      exact h
  | some blk =>
      cases hexp
      simp only [Heap.get_new_self] at hres
      generalize blockBuf blk c.blocks.next c.alloc.enableEagerFree = b at hres
      -- the buffers that were idle before are where they were
      have hold : ∀ p ∈ c.alloc.freeMemBufs, ∀ y, (c.bufs.new b).get p = some y →
          y.size < size := by
        intro p hp y hy
        obtain ⟨-, d, hd, -⟩ := hinv.free.sound p hp
        obtain ⟨b₀, hb₀, -⟩ := dataOf_get_some hd
        have hne : p ≠ c.bufs.next := Heap.ne_next hb₀
        rw [Heap.get_new, if_neg hne] at hy
        exact h p hp y hy
      split at hres
      · rename_i hlt
        split at hres
        · cases hres
          intro p hp y hy
          rcases OrdSet.mem_emplace hp with rfl | hp
          · rw [Heap.get_new_self] at hy
            cases hy
            exact hlt
          · exact hold p hp y hy
        · cases hres
          exact hold
      · exact mapAndSplitMemBuf_noFit (by exact hold) hres

theorem malloc_noFit (hinv : AllocInv c.bufs c.blocks c.alloc lay none)
    (hres : malloc cb size c = some (none, c')) : NoFit size c' := by
  unfold malloc at hres
  split at hres
  · rename_i hempty
    refine mallocExpandBlock_noFit (fun p hp => ?_) hinv hres
    obtain ⟨-, d, -, hB, -⟩ := hinv.free.sound p hp
    rw [List.isEmpty_iff.mp hempty] at hB
    cases hB
  · split at hres
    · rename_i p hp
      obtain ⟨b, hb, -, hst, -⟩ := lowerBound_fits hinv.free hp
      cases mapAndSplitMemBuf_idle
        (c := { c with alloc := { c.alloc with freeMemBufs := c.alloc.freeMemBufs.erase p } })
        hb hst hres
    · rename_i hfree
      have h : NoFit size c := by
        intro p hp b hb
        have hlt := OrdSet.lowerBound_none hfree p hp
        rw [memBufKey_eq, dataKey_of_get (dataOf_get hb), Prod.Lex.toLex_lt_toLex] at hlt
        rcases hlt with hlt | ⟨-, hlt⟩
        · exact hlt
        · exact absurd hlt (Nat.not_lt_zero _)
      split at hres
      · exact mapAndSplitMemBuf_noFit (c := { c with alloc := { c.alloc with
            eagerFreeMemBufs := c.alloc.eagerFreeMemBufs.erase _ } }) h hres
      · cases hres
        exact h

/-- The idle buffers have all gone. -/
theorem freeIdleMemsByEagerFree_noFit {sizes : Nat × Nat} (size : Nat)
    (hinv : AllocInv c.bufs c.blocks c.alloc lay none)
    (hres : freeIdleMemsByEagerFree cb c = some (sizes, c')) : NoFit size c' := by
  unfold freeIdleMemsByEagerFree at hres
  generalize hwalk : eagerFreeAll c.alloc.freeMemBufs 0 c = walk at hres
  obtain ⟨total, c₁⟩ := walk
  obtain ⟨lay', n, hinv', -⟩ := eagerFreeAll_spec cb hinv hwalk (by decide)
  obtain ⟨⟨real, c₂⟩, hdev, hres⟩ := Option.bind_eq_some_iff.mp hres
  cases hres
  obtain ⟨⟨env, rfl⟩, -⟩ := memEagerFreeAll_spec
    (c := { c₁ with alloc := { c₁.alloc with freeMemBufs := [] } })
    (fun p hp => (hinv'.eager.sound p hp).2) hdev
  intro p hp
  cases hp

end MemBufAllocator

/-! ## The pool -/

/-- No memory at the null address. -/
def Device.NonNull (dev : Device δ) : Prop :=
  ∀ eager n d size addr d', dev.allocMem eager n d = some ((size, addr), d') → size ≠ 0 →
    addr ≠ 0

/-- The law of a device without memory at the null address holds of the regions elsewhere. -/
def DeviceLaw.nonNull (law : DeviceLaw dev) (hnull : dev.NonNull) : DeviceLaw dev where
  held b d := (law.held b d).filter fun r => decide (r.1 ≠ 0)
  fresh := fun b n d size addr d' h hsize r hr =>
    law.fresh b n d size addr d' h hsize r (List.mem_of_mem_filter hr)
  given := fun b n d size addr d' h hsize =>
    List.mem_filter.mpr ⟨law.given b n d size addr d' h hsize,
      decide_eq_true (hnull b n d size addr d' h hsize)⟩
  kept := fun b n d r d' h b' x hx => by
    obtain ⟨hx, hne⟩ := List.mem_filter.mp hx
    exact List.mem_filter.mpr ⟨law.kept b n d r d' h b' x hx, hne⟩
  eagerFree := fun addr size d n d' h b x hx => by
    obtain ⟨hx, hne⟩ := List.mem_filter.mp hx
    exact List.mem_filter.mpr ⟨law.eagerFree addr size d n d' h b x hx, hne⟩
  mmap := fun size addr d n d' h b x hx => by
    obtain ⟨hx, hne⟩ := List.mem_filter.mp hx
    exact List.mem_filter.mpr ⟨law.mmap size addr d n d' h b x hx, hne⟩
  sync := fun d ok d' h b x hx => by
    obtain ⟨hx, hne⟩ := List.mem_filter.mp hx
    exact List.mem_filter.mpr ⟨law.sync d ok d' h b x hx, hne⟩

theorem DeviceLaw.nonNull_disjoint {law : DeviceLaw dev} (hdis : law.Disjoint)
    (hnull : dev.NonNull) : (law.nonNull hnull).Disjoint :=
  fun b n d size addr d' h hsize b' r hr =>
    hdis b n d size addr d' h hsize b' r (List.mem_of_mem_filter hr)

namespace Pool

variable {law : DeviceLaw dev} {b₀ size n streamId : Nat} {s s' : Pool δ} {k k' : AllocatorKey}
  {al : MemBufAllocator} {fromPersistentMem : Bool}

/-- No idle buffer of allocator `k` has room for `size` bytes. -/
def Exhausted (size : Nat) (k : AllocatorKey) (s : Pool δ) : Prop :=
  ∀ al, s.allocator? k = some al → MemBufAllocator.NoFit size (s.ctx al)

/-- What one allocator does is no concern of another. -/
theorem Exhausted.putCtx {lay lay' : Nat → List Nat} {c : Ctx (Env δ)} (he : Exhausted size k' s)
    (h : Inv law b₀ s)
    (hlay : ∀ k al, s.allocator? k = some al → AllocInv s.bufs s.blocks al lay none)
    (hal : s.allocator? k = some al) (hext : Ext (s.ctx al) c lay lay')
    (hown : k' = k → MemBufAllocator.NoFit size c) : Exhausted size k' (s.putCtx k c) := by
  intro al' hal' p hp b hb
  rw [allocator?_putCtx hal] at hal'
  by_cases hne : k' = k
  · rw [if_pos hne] at hal'
    cases hal'
    exact hown hne p hp b hb
  · rw [if_neg hne] at hal'
    obtain ⟨-, d, hd, hB, -⟩ := (hlay k' al' hal').free.sound p hp
    obtain ⟨b', hb', rfl⟩ := dataOf_get_some hd
    have hout : b'.memBlock ∉ c.alloc.memBlocks := by
      intro hCc
      rcases hext.fresh _ hCc with hCal | hCn
      · exact hne (h.base.excl k' k _ ((owns_iff hal' _).mpr hB) ((owns_iff hal _).mpr hCal))
      · obtain ⟨r, hr, -⟩ := h.base.held k' _ ((owns_iff hal' _).mpr hB)
        exact absurd (Heap.lt_next hr) (Nat.not_lt.mpr hCn)
    have hb : c.bufs.get p = some b := hb
    rw [(hext.outside p b' hout).mpr hb'] at hb
    cases hb
    exact he al' hal' p hp _ hb'

/-- Behind a search that fails, the allocator that was searched is exhausted, and the others are
if they were. -/
theorem Exhausted.malloc (he : k' ≠ k → Exhausted size k' s) (h : Inv law b₀ s)
    (hres : malloc dev k size s = some (none, s')) : Exhausted size k' s' := by
  unfold Pool.malloc at hres
  split at hres
  · rename_i hk
    cases hres
    by_cases hne : k' = k
    · intro al hal
      rw [hne, hk] at hal
      cases hal
    · exact he hne
  · rename_i al hal
    obtain ⟨⟨r, c⟩, hm, hres⟩ := Option.bind_eq_some_iff.mp hres
    cases hres
    obtain ⟨lay, hlay⟩ := h.alloc
    have hown : MemBufAllocator.NoFit size c :=
      MemBufAllocator.malloc_noFit (c := s.ctx al) (hlay k al hal) hm
    obtain ⟨lay', hm⟩ := MemBufAllocator.malloc_spec (hlay k al hal) (h.canExpand hal) hm
    by_cases hne : k' = k
    · intro al' hal'
      rw [allocator?_putCtx hal, if_pos hne] at hal'
      cases hal'
      exact hown
    · exact (he hne).putCtx h hlay hal hm.ext fun heq => absurd heq hne

theorem Exhausted.mallocExpandBlock (he : Exhausted size k' s) (h : Inv law b₀ s)
    (hres : mallocExpandBlock dev k size s = some (none, s')) : Exhausted size k' s' := by
  unfold Pool.mallocExpandBlock at hres
  split at hres
  · cases hres
    exact he
  · rename_i al hal
    obtain ⟨⟨r, c⟩, hm, hres⟩ := Option.bind_eq_some_iff.mp hres
    cases hres
    obtain ⟨lay, hlay⟩ := h.alloc
    have hown : k' = k → MemBufAllocator.NoFit size c := fun heq =>
      MemBufAllocator.mallocExpandBlock_noFit (he al (by rw [heq]; exact hal)) (hlay k al hal) hm
    obtain ⟨lay', hm⟩ :=
      MemBufAllocator.mallocExpandBlock_spec (hlay k al hal) (h.canExpand hal) hm
    exact he.putCtx h hlay hal hm.ext hown

/-- An allocator made on first use holds no buffers. -/
theorem Exhausted.getMemBufAllocator (he : Exhausted size k' s)
    (hres : getMemBufAllocator dev n fromPersistentMem streamId s = (k, s')) :
    Exhausted size k' s' := by
  unfold Pool.getMemBufAllocator at hres
  split at hres
  · cases hres
    exact he
  · cases hres
    intro al hal p hp b hb
    rw [allocator?_addAllocator] at hal
    split at hal
    · cases hk : s.allocator? k' with
      | none =>
          rw [hk] at hal
          cases hal
          cases hp
      | some al' =>
          rw [hk] at hal
          cases hal
          exact he al' hk p hp b hb
    · exact he al hal p hp b hb

theorem Exhausted.syncAllStreams {ok : Bool} (he : Exhausted size k s)
    (hres : syncAllStreams dev s = some (ok, s')) : Exhausted size k s' := by
  obtain ⟨⟨ok', d⟩, -, hres⟩ := Option.bind_eq_some_iff.mp hres
  cases hres
  exact he

theorem Exhausted.eagerFreeAllocators {keys : List (Lex (Bool × Nat))} {m : Nat}
    {sizes : Nat × Nat} (he : Exhausted size k' s) (h : Inv law b₀ s) (hn : n < sizeBound)
    (hres : eagerFreeAllocators dev keys n m s = some (sizes, s')) : Exhausted size k' s' := by
  induction keys generalizing s n m with
  | nil =>
      cases hres
      exact he
  | cons key keys ih =>
      simp only [Pool.eagerFreeAllocators] at hres
      cases hal : s.streamIdAllocators.find? key with
      | none =>
          rw [hal] at hres
          exact ih he h hn hres
      | some al =>
          rw [hal] at hres
          obtain ⟨⟨⟨n₁, m₁⟩, c⟩, hfree, hres⟩ := Option.bind_eq_some_iff.mp hres
          have hone : Pool.eagerFreeAllocators dev [key] n m s =
              some ((addSize n n₁, addSize m m₁),
                s.putCtx (.stream (ofLex key).1 (ofLex key).2) c) := by
            simp only [Pool.eagerFreeAllocators, hal, hfree]
            rfl
          obtain ⟨-, -, hinv, -, -⟩ := eagerFreeAllocators_spec h hn hone
          have hal : s.allocator? (.stream (ofLex key).1 (ofLex key).2) = some al := hal
          obtain ⟨lay, hlay⟩ := h.alloc
          obtain ⟨lay', -, -, hext, -, -⟩ :=
            MemBufAllocator.freeIdleMemsByEagerFree_spec (hlay _ al hal) hfree
          exact ih (he.putCtx h hlay hal hext fun _ =>
            MemBufAllocator.freeIdleMemsByEagerFree_noFit size (hlay _ al hal) hfree) hinv
            (addSize_lt _ _) hres

theorem Exhausted.freeIdleMemsByEagerFree {sizes : Nat × Nat} (he : Exhausted size k s)
    (h : Inv law b₀ s) (hres : freeIdleMemsByEagerFree dev s = some (sizes, s')) :
    Exhausted size k s' := by
  obtain ⟨⟨⟨total, real⟩, s₁⟩, hsw, hres⟩ := Option.bind_eq_some_iff.mp hres
  cases hres
  have he' : Exhausted size k { s with eagerFreeCount := addSize s.eagerFreeCount 1 } := he
  have h₁ : Exhausted size k s₁ :=
    he'.eagerFreeAllocators ⟨h.base, h.alloc, h.flag⟩ (by decide) hsw
  exact h₁

theorem Exhausted.expand {r : Attempt} (he : Exhausted size k' s) (h : Inv law b₀ s)
    (hfail : ∀ p k, r ≠ .found p k)
    (hres : (do
      let (p, s) ← Pool.mallocExpandBlock dev k size s
      match p with
      | some p => some (Attempt.found p k, s)
      | none => some (Attempt.exhausted k, s)) = some (r, s')) :
    r = .exhausted k ∧ Exhausted size k' s' := by
  obtain ⟨⟨p, s₁⟩, hm, hres⟩ := Option.bind_eq_some_iff.mp hres
  cases p with
  | none =>
      cases hres
      exact ⟨rfl, he.mallocExpandBlock h hm⟩
  | some p =>
      cases hres
      exact absurd rfl (hfail p k)

theorem Exhausted.mallocAfterEagerFree {r : Attempt} (he : Exhausted size k' s) (h : Inv law b₀ s)
    (hfail : ∀ p k, r ≠ .found p k)
    (hres : mallocAfterEagerFree dev size k s = some (r, s')) :
    (r = .syncFailed ∨ r = .exhausted k) ∧ Exhausted size k' s' := by
  unfold Pool.mallocAfterEagerFree at hres
  dsimp only at hres
  split at hres
  · obtain ⟨⟨ok, s₁⟩, hsync, hres⟩ := Option.bind_eq_some_iff.mp hres
    have h₁ := (syncAllStreams_spec h hsync).inv
    have he₁ := he.syncAllStreams hsync
    dsimp only at hres
    split at hres
    · cases hres
      exact ⟨.inl rfl, he₁⟩
    · obtain ⟨⟨_, s₂⟩, hfree, hres⟩ := Option.bind_eq_some_iff.mp hres
      have h₂ := (freeIdleMemsByEagerFree_spec h₁ hfree).inv
      have he₂ := he₁.freeIdleMemsByEagerFree h₁ hfree
      obtain ⟨⟨p, s₃⟩, hm, hres⟩ := Option.bind_eq_some_iff.mp hres
      cases p with
      | some p =>
          cases hres
          exact absurd rfl (hfail p k)
      | none =>
          have he₃ : Exhausted size k' s₃ := Exhausted.malloc (fun _ => he₂) h₂ hm
          obtain ⟨hr, he'⟩ := he₃.expand ((malloc_spec h₂ hm).1 rfl).inv hfail hres
          exact ⟨.inr hr, he'⟩
  · obtain ⟨hr, he'⟩ := he.expand h hfail hres
    exact ⟨.inr hr, he'⟩

/-! ## The allocators of a request -/

/-- The allocator that `GetMemBufAllocator` chooses. -/
def requestKey (dev : Device δ) (size : Nat) (fromPersistentMem : Bool) (streamId : Nat)
    (s : Pool δ) : AllocatorKey :=
  (getMemBufAllocator dev size fromPersistentMem streamId s).1

/-- The allocator that is searched last: that of common memory, except that with vmm persistent
memory has no other. -/
def lastKey (dev : Device δ) (size : Nat) (fromPersistentMem : Bool) (streamId : Nat)
    (s : Pool δ) : AllocatorKey :=
  requestKey dev size (fromPersistentMem && s.enableVmm) streamId s

theorem requestKey_congr (h : s'.tinyAllocator.isSome = s.tinyAllocator.isSome) :
    requestKey dev size fromPersistentMem streamId s' =
      requestKey dev size fromPersistentMem streamId s := by
  unfold requestKey getMemBufAllocator
  rw [h]
  split <;> rfl

theorem malloc_tiny {r : Option Nat} (hres : malloc dev k size s = some (r, s')) :
    s'.tinyAllocator.isSome = s.tinyAllocator.isSome := by
  unfold malloc at hres
  split at hres
  · cases hres
    rfl
  · rename_i al hal
    obtain ⟨⟨r', c⟩, -, hres⟩ := Option.bind_eq_some_iff.mp hres
    cases hres
    have htiny := allocator?_putCtx hal c .tiny
    show ((s.putCtx k c).allocator? .tiny).isSome = (s.allocator? .tiny).isSome
    rw [htiny]
    split
    · rename_i hk
      rw [hk, hal]
      rfl
    · rfl

theorem getMemBufAllocator_tiny
    (hres : getMemBufAllocator dev n fromPersistentMem streamId s = (k, s')) :
    s'.tinyAllocator = s.tinyAllocator := by
  unfold getMemBufAllocator at hres
  split at hres <;>
    cases hres <;> rfl

theorem mallocFromAnother_fails (he : Exhausted size k s) (h : Inv law b₀ s)
    (hres : mallocFromAnother dev size fromPersistentMem streamId k s = some ((none, k'), s')) :
    k' = (if !s.enableVmm && fromPersistentMem
      then requestKey dev size (!fromPersistentMem) streamId s else k) ∧
      Exhausted size k s' ∧ Exhausted size k' s' := by
  unfold mallocFromAnother at hres
  split at hres
  · rename_i hanother
    rw [if_pos hanother]
    generalize hget : getMemBufAllocator dev size (!fromPersistentMem) streamId s = ks at hres
    obtain ⟨k₁, s₁⟩ := ks
    have h₁ := (getMemBufAllocator_spec h hget).inv
    have he₁ := he.getMemBufAllocator hget
    obtain ⟨⟨r', s₂⟩, hm, hres⟩ := Option.bind_eq_some_iff.mp hres
    cases hres
    refine ⟨?_, .malloc (fun _ => he₁) h₁ hm, .malloc (fun hne => absurd rfl hne) h₁ hm⟩
    rw [requestKey, hget]
  · rename_i hanother
    rw [if_neg hanother]
    cases hres
    exact ⟨rfl, he, he⟩

/-- A search that finds nothing has gone through the allocator of the request and the last one. -/
theorem findMemBuf_fails {r : Attempt} (h : Inv law b₀ s) (hfail : ∀ p k, r ≠ .found p k)
    (hres : findMemBuf dev size fromPersistentMem streamId s = some (r, s')) :
    (r = .syncFailed ∨ r = .exhausted (lastKey dev size fromPersistentMem streamId s)) ∧
      Exhausted size (requestKey dev size fromPersistentMem streamId s) s' ∧
      Exhausted size (lastKey dev size fromPersistentMem streamId s) s' := by
  unfold findMemBuf at hres
  generalize hget : getMemBufAllocator dev size fromPersistentMem streamId s = ks at hres
  obtain ⟨k, s₁⟩ := ks
  have hk : requestKey dev size fromPersistentMem streamId s = k := by
    rw [requestKey, hget]
  have hq₁ := getMemBufAllocator_spec h hget
  obtain ⟨⟨p, s₂⟩, hm, hres⟩ := Option.bind_eq_some_iff.mp hres
  cases p with
  | some p =>
      cases hres
      exact absurd rfl (hfail p k)
  | none =>
      have hq₂ := hq₁.trans ((malloc_spec hq₁.inv hm).1 rfl)
      have he₂ : Exhausted size k s₂ := .malloc (fun hne => absurd rfl hne) hq₁.inv hm
      obtain ⟨⟨⟨p, k'⟩, s₃⟩, hother, hres⟩ := Option.bind_eq_some_iff.mp hres
      cases p with
      | some p =>
          cases hres
          exact absurd rfl (hfail p k')
      | none =>
          have hq₃ := (mallocFromAnother_spec hq₂.inv hother).1 rfl
          obtain ⟨hk', he₃, he₃'⟩ := mallocFromAnother_fails he₂ hq₂.inv hother
          have hlast : lastKey dev size fromPersistentMem streamId s = k' := by
            have htiny : s₂.tinyAllocator.isSome = s.tinyAllocator.isSome := by
              rw [malloc_tiny hm, getMemBufAllocator_tiny hget]
            rw [hk', hq₂.vmm, requestKey_congr htiny, ← hk, lastKey]
            cases fromPersistentMem <;> cases s.enableVmm <;> rfl
          obtain ⟨hr, he⟩ := he₃.mallocAfterEagerFree hq₃.inv hfail hres
          obtain ⟨-, he'⟩ := he₃'.mallocAfterEagerFree hq₃.inv hfail hres
          rw [hk, hlast]
          exact ⟨hr, he, he'⟩

/-! ## Runs -/

/-- Allocator `k` holds no idle memory for a request of `size` bytes. -/
def NoIdle (size : Nat) (k : AllocatorKey) (s : Pool δ) : Prop :=
  ∀ al, s.allocator? k = some al → ∀ p b, s.bufs.get p = some b → b.memBlock ∈ al.memBlocks →
    b.status = .idle → 0 < b.size → b.size < size

theorem Exhausted.noIdle (he : Exhausted size k s) (h : Inv law b₀ s) : NoIdle size k s := by
  intro al hal p b hb hB hst hpos
  obtain ⟨lay, hlay⟩ := h.alloc
  exact he al hal p ((hlay k al hal).free.complete p b.data (dataOf_get hb) hB hst hpos (by simp))
    b hb

/-- A buffer of the pool does not lie at the null address. -/
theorem Inv.addr_ne_zero {p : Nat} {b : MemBuf} {hnull : dev.NonNull}
    (h : Inv (law.nonNull hnull) 0 s) (hb : s.bufs.get p = some b) : b.addr ≠ 0 := by
  obtain ⟨k, hk⟩ := h.base.owned p b.data (dataOf_get hb) (Nat.zero_le _)
  obtain ⟨r, hr, hheld⟩ := h.base.held k _ hk
  obtain ⟨al, hal, hB⟩ := hk
  obtain ⟨lay, hlay⟩ := h.alloc
  obtain ⟨blk, hblk, hle, -⟩ := (hlay k al hal).inside (dataOf_get hb) hB
  have hspan : (s.blocks.map MemBlock.span).get b.memBlock = some r := hr
  rw [Heap.get_map, show s.blocks.get b.memBlock = some blk from hblk] at hspan
  cases hspan
  have hblk0 : blk.addr ≠ 0 := of_decide_eq_true (List.mem_filter.mp hheld).2
  have hle : blk.addr ≤ b.addr := hle
  omega

/-- A buffer that has been found has an address. -/
theorem Found.address {p : Nat} {hnull : dev.NonNull} (h : Inv (law.nonNull hnull) 0 s)
    (hf : Found (law.nonNull hnull) 0 size p k s s') :
    (((countUsed p s').bufs.get p).map MemBuf.addr).getD 0 ≠ 0 := by
  obtain ⟨A, b, hb, hget, -⟩ := hf.hand h
  rw [hget]
  exact hf.inv.addr_ne_zero hb

theorem requestKey_eq_lastKey (h : fromPersistentMem = false ∨ s.enableVmm = true) :
    requestKey dev size fromPersistentMem streamId s =
      lastKey dev size fromPersistentMem streamId s := by
  unfold lastKey
  rcases h with h | h
  · rw [h]
    rfl
  · rw [h, Bool.and_true]

/-- A null result comes from a search that has found nothing, not even behind the events. -/
theorem allocTensorMem_null {hnull : dev.NonNull} (h : Inv (law.nonNull hnull) 0 s)
    (hres : allocTensorMem dev size fromPersistentMem streamId s = some (0, s')) :
    let n := alignMemorySize size
    Exhausted n (lastKey dev n fromPersistentMem streamId s) s' ∧
      (fromPersistentMem = false ∨ s.enableVmm = true ∨ s.streamPairMemBufs.entries = [] →
        Exhausted n (requestKey dev n fromPersistentMem streamId s) s') := by
  intro n
  obtain ⟨⟨r, s₁⟩, hmem, hres⟩ := Option.bind_eq_some_iff.mp hres
  obtain ⟨⟨a, s₂⟩, hfind, hmem⟩ := Option.bind_eq_some_iff.mp hmem
  have hfind : findMemBuf dev n fromPersistentMem streamId s = some (a, s₂) := hfind
  have hspec := findMemBuf_spec h hfind
  cases a with
  | found p k =>
      cases hmem
      exact absurd (Prod.mk.inj (Option.some.inj hres)).1 (Found.address h hspec)
  | syncFailed =>
      cases hmem
      cases hres
      obtain ⟨-, he, hlast⟩ := findMemBuf_fails h (fun p k hr => by cases hr) hfind
      exact ⟨hlast, fun _ => he⟩
  | exhausted k =>
      obtain ⟨hk, he, -⟩ := findMemBuf_fails h (fun p k hr => by cases hr) hfind
      have hk : k = lastKey dev n fromPersistentMem streamId s := by
        rcases hk with hk | hk
        · cases hk
        · exact Attempt.exhausted.inj hk
      have hspec : Quiet (law.nonNull hnull) 0 s s₂ := hspec
      have hsync : Does (law.nonNull hnull) 0 s₂ (doSyncAllEvents dev s₂).2 (Arena.SyncAll dev) :=
        doSyncAllEvents_spec hspec.inv
      obtain ⟨⟨p, s₃⟩, hm, hmem⟩ := Option.bind_eq_some_iff.mp hmem
      have hm : malloc dev k n (doSyncAllEvents dev s₂).2 = some (p, s₃) := hm
      cases p with
      | some p =>
          cases hmem
          exact absurd (Prod.mk.inj (Option.some.inj hres)).1
            (Found.address hsync.inv ((malloc_spec hsync.inv hm).2 p rfl))
      | none =>
          cases hmem
          cases hres
          have hlast : Exhausted n k s' := .malloc (fun hne => absurd rfl hne) hsync.inv hm
          rw [hk] at hlast
          refine ⟨hlast, fun hcase => ?_⟩
          rcases hcase with hcase | hcase | hpairs
          · rw [requestKey_eq_lastKey (.inl hcase)]
            exact hlast
          · rw [requestKey_eq_lastKey (.inr hcase)]
            exact hlast
          · -- without events the allocator is as it was left by the search
            have hcalm := Arena.Calm.of_path hspec.path
            have hpairs₂ : s₂.streamPairMemBufs.entries = [] := by
              rw [show s₂.streamPairMemBufs = s.streamPairMemBufs from hcalm.pairs]
              exact hpairs
            have hidle : (doSyncAllEvents dev s₂).2 = s₂ := by
              unfold doSyncAllEvents
              rw [hpairs₂]
              rfl
            rw [hidle] at hm
            exact .malloc (fun _ => he) hspec.inv hm

/-- When an allocation fails after a run of fitting calls, the allocator that was searched last
holds no idle memory for it, events that were synced on the way included. The allocator of the
request does not either, unless the request is for persistent memory, vmm is off and buffers carry
events. -/
theorem failed_alloc_no_idle (law : DeviceLaw dev) (hdis : law.Disjoint) (hbd : dev.Bounded)
    (hnull : dev.NonNull) {enableVmm enableTiny : Bool} {d : δ} {calls : List Call}
    (hrun : Run (fun s c s' => Step dev s c s' ∧ fittingCall s c)
      (Pool.init enableVmm enableTiny d) calls s)
    (hres : allocTensorMem dev size fromPersistentMem streamId s = some (0, s')) :
    NoIdle (alignMemorySize size)
        (lastKey dev (alignMemorySize size) fromPersistentMem streamId s) s' ∧
      (fromPersistentMem = false ∨ s.enableVmm = true ∨ s.streamPairMemBufs.entries = [] →
        NoIdle (alignMemorySize size)
          (requestKey dev (alignMemorySize size) fromPersistentMem streamId s) s') := by
  have hdis' := DeviceLaw.nonNull_disjoint hdis hnull
  have hinv : Tight (law.nonNull hnull) s := hrun.state_inv (I := Tight (law.nonNull hnull))
    (Tight.init _ enableVmm enableTiny d) fun s c s' h hs => h.step hdis' hbd hs.2 hs.1
  have hinv' : Inv (law.nonNull hnull) 0 s' := (hinv.allocTensorMem hdis' hbd hres).inv
  obtain ⟨hlast, hrequest⟩ := allocTensorMem_null hinv.inv hres
  exact ⟨hlast.noIdle hinv', fun hcase => (hrequest hcase).noIdle hinv'⟩

theorem linearDevice_nonNull (eager limited : Bool) : (linearDevice eager limited).NonNull := by
  intro b n d size addr d' h hsize
  rcases LinearState.alloc_cases (LinearState.allocMem_eq h) with ⟨h0, -⟩ | ⟨-, haddr, -, -⟩
  · exact absurd h0 hsize
  · rw [haddr]
    exact Nat.ne_of_gt d.start

/-- A persistent buffer of 2^63 bytes is freed while it carries an event. The next persistent
request fails, and leaves these bytes idle. -/
theorem failed_alloc_no_idle_event :
    ∃ calls s s', Run (fun s c s' => Step (linearDevice false false) s c s' ∧ fittingCall s c)
        (Pool.init false false (LinearState.init 0)) calls s ∧
      allocTensorMem (linearDevice false false) (2 ^ 62) true 0 s = some (0, s') ∧
      NoIdle (2 ^ 62) (lastKey (linearDevice false false) (2 ^ 62) true 0 s) s' ∧
      ¬ NoIdle (2 ^ 62) (requestKey (linearDevice false false) (2 ^ 62) true 0 s) s' := by
  have hexec : ((execOne (linearDevice false false) (Pool.init false false (LinearState.init 0))
      (.alloc (2 ^ 63) true 0 512)).bind fun s =>
        (execOne (linearDevice false false) s
            (.alloc (2 ^ 62) false 0 (2 ^ 63 + 512))).bind fun s =>
          let s := freeTensorMem 512 (recordEvent (linearDevice false false) 3 1 [(0, 512)] 7 s)
          (allocTensorMem (linearDevice false false) (2 ^ 62) true 0 s).map fun r =>
            (r.1, decide (
              requestKey (linearDevice false false) (2 ^ 62) true 0 s = .stream true 0 ∧
              ((r.2.bufs.get 0).map fun b => (b.size, b.memBlock, b.status)) =
                some (2 ^ 63, 0, .idle) ∧
              (r.2.allocator? (.stream true 0)).map MemBufAllocator.memBlocks = some [0]))) =
      some (0, true) := by
    decide +kernel
  obtain ⟨s₁, h₁, hrest⟩ := Option.bind_eq_some_iff.mp hexec
  obtain ⟨s₂, h₂, hrest⟩ := Option.bind_eq_some_iff.mp hrest
  obtain ⟨⟨addr, s'⟩, hres, heq⟩ := Option.map_eq_some_iff.mp hrest
  obtain ⟨rfl, heq⟩ := Prod.mk.inj heq
  obtain ⟨hkey, hbuf, hown⟩ := of_decide_eq_true heq
  obtain ⟨b, hb, hdata⟩ := Option.map_eq_some_iff.mp hbuf
  obtain ⟨hsize, hdata⟩ := Prod.mk.inj hdata
  obtain ⟨hB, hst⟩ := Prod.mk.inj hdata
  obtain ⟨al, hal, hblocks⟩ := Option.map_eq_some_iff.mp hown
  have hrun₀ : Run (fun s c s' => Step (linearDevice false false) s c s' ∧ fittingCall s c)
      (Pool.init false false (LinearState.init 0)) [] _ := .nil
  have hrun₁ := hrun₀.snoc ⟨step_of_execOne h₁, trivial⟩
  have hrun₂ := hrun₁.snoc ⟨step_of_execOne h₂, trivial⟩
  have hrun₃ := hrun₂.snoc ⟨step_of_execOne (c := .record 3 1 [(0, 512)] 7) rfl, trivial⟩
  have hrun := hrun₃.snoc ⟨step_of_execOne (c := .free 512) rfl, trivial⟩
  obtain ⟨hlast, -⟩ := failed_alloc_no_idle _ (linearLaw_disjoint false false)
    (linearDevice_bounded false false) (linearDevice_nonNull false false) hrun hres
  refine ⟨_, _, s', hrun, hres, hlast, fun hidle => ?_⟩
  rw [hkey] at hidle
  have hlt := hidle al hal 0 b hb (by rw [hB, hblocks]; simp) hst (by rw [hsize]; decide)
  rw [hsize] at hlt
  exact absurd hlt (by decide)

end Pool

end Ccbase.Memory
