import Ccbase.Memory.ArenaInv

/-!
# The invariant of the pool

`Inv` joins the two layers: every allocator of the pool satisfies `AllocInv`,
and the arena of the pool satisfies `Base`. The theorems say what each
operation of the pool is on the arena, and that it keeps `Inv`.
-/

namespace Ccbase.Memory

open Ccbase.Lib Chain Relation

variable {δ : Type} {dev : Device δ}

namespace Arena

theorem put_core (A : Arena δ) (k : AllocatorKey) (m : Core (Env δ)) :
    (A.put k m).core k = m := by
  show Core.mk m.bufs m.blocks (Function.update A.owns k m.own k) m.env = m
  rw [Function.update_self]

theorem put_put (A : Arena δ) (k : AllocatorKey) (m m' : Core (Env δ)) :
    (A.put k m).put k m' = A.put k m' := by
  show Arena.mk _ _ (Function.update (Function.update A.owns k m.own) k m'.own) _ _ _ = _
  rw [Function.update_idem]
  rfl

theorem put_self (A : Arena δ) (k : AllocatorKey) : A.put k (A.core k) = A := by
  show Arena.mk _ _ (Function.update A.owns k (A.owns k)) _ _ _ = _
  rw [Function.update_eq_self]
  rfl

theorem sweepsAll_trans {A A' A'' : Arena δ} {n n' : Nat} (h : SweepsAll dev A n A')
    (h' : SweepsAll dev A' n' A'') : SweepsAll dev A (n + n') A'' := by
  induction h' with
  | refl => exact h
  | tail _ hk hm ih =>
      rw [← Nat.add_assoc]
      exact ih.tail hk hm

/-- The steps of an allocator are background steps of the pool. -/
theorem churn_path {vmm : Bool} {s : Pool δ} {k : AllocatorKey} {A : Arena δ}
    {m : Core (Env δ)} (hs : s.enableVmm = vmm)
    (h : ReflTransGen (Churn (Pool.callbacks dev s k) (isEager dev vmm k)) (A.core k) m) :
    ReflTransGen (Background dev vmm) A (A.put k m) := by
  induction h with
  | refl =>
      rw [put_self]
  | @tail m₁ m₂ _ hstep ih =>
      have hback : Background dev vmm (A.put k m₁) ((A.put k m₁).put k m₂) :=
        .churn hs (by rw [put_core]; exact hstep)
      rw [put_put] at hback
      exact ih.tail hback

end Arena

namespace Pool

/-- Every allocator is in order, and so is the arena. -/
structure Inv (law : DeviceLaw dev) (b₀ : Nat) (s : Pool δ) : Prop where
  base : Arena.Base law s.enableVmm b₀ s.arena
  alloc : ∃ lay, ∀ k al, s.allocator? k = some al → AllocInv s.bufs s.blocks al lay none
  flag : ∀ k al, s.allocator? k = some al → al.enableEagerFree = isEager dev s.enableVmm k

variable {law : DeviceLaw dev} {b₀ : Nat} {s s' : Pool δ} {k : AllocatorKey}
  {al : MemBufAllocator}

theorem owns_iff (hal : s.allocator? k = some al) (B : Nat) :
    s.arena.owns k B ↔ B ∈ al.memBlocks := by
  show (∃ al', s.allocator? k = some al' ∧ B ∈ al'.memBlocks) ↔ _
  simp [hal]

/-- Every allocator is in order after a method of one of them. -/
theorem Inv.putCtx_orderly {lay lay' : Nat → List Nat} {c : Ctx (Env δ)} (h : Inv law b₀ s)
    (hlay : ∀ k al, s.allocator? k = some al → AllocInv s.bufs s.blocks al lay none)
    (hal : s.allocator? k = some al) (hinv : AllocInv c.bufs c.blocks c.alloc lay' none)
    (hext : Ext (s.ctx al) c lay lay') :
    (∃ lay, ∀ k' al', (s.putCtx k c).allocator? k' = some al' →
      AllocInv c.bufs c.blocks al' lay none) ∧
    (∀ k' al', (s.putCtx k c).allocator? k' = some al' →
      al'.enableEagerFree = isEager dev s.enableVmm k') := by
  constructor
  · refine ⟨lay', fun k' al' hal' => ?_⟩
    rw [allocator?_putCtx hal] at hal'
    by_cases hk : k' = k
    · rw [if_pos hk] at hal'
      cases hal'
      exact hinv
    · rw [if_neg hk] at hal'
      refine (hlay k' al' hal').frame hext.outside hext.blocksOut hext.layOut ?_
      -- a block of another allocator is neither an old nor a new one of this
      intro C hC hCc
      rcases hext.fresh C hCc with hCal | hCn
      · exact hk (h.base.excl k' k C ((owns_iff hal' C).mpr hC) ((owns_iff hal C).mpr hCal))
      · obtain ⟨r, hr, _⟩ := h.base.held k' C ((owns_iff hal' C).mpr hC)
        have hlt := Heap.lt_next hr
        exact absurd hlt (Nat.not_lt.mpr hCn)
  · intro k' al' hal'
    rw [allocator?_putCtx hal] at hal'
    by_cases hk : k' = k
    · rw [if_pos hk] at hal'
      cases hal'
      rw [hk, hext.eager]
      exact h.flag k al hal
    · rw [if_neg hk] at hal'
      exact h.flag k' al' hal'

/-- The pool after a method of one allocator. -/
theorem Inv.putCtx {lay lay' : Nat → List Nat} {c : Ctx (Env δ)} (h : Inv law b₀ s)
    (hlay : ∀ k al, s.allocator? k = some al → AllocInv s.bufs s.blocks al lay none)
    (hal : s.allocator? k = some al) (hinv : AllocInv c.bufs c.blocks c.alloc lay' none)
    (hext : Ext (s.ctx al) c lay lay')
    (hbase : Arena.Base law s.enableVmm b₀ (s.putCtx k c).arena) :
    Inv law b₀ (s.putCtx k c) := by
  obtain ⟨halloc, hflag⟩ := h.putCtx_orderly hlay hal hinv hext
  refine ⟨?_, halloc, ?_⟩
  · rw [putCtx_enableVmm]
    exact hbase
  · rw [putCtx_enableVmm]
    exact hflag

theorem Inv.canExpand (h : Inv law b₀ s) (hal : s.allocator? k = some al) :
    MemBufAllocator.CanExpand (callbacks dev s k) (s.ctx al) where
  apart := fun size blk env hcb C hC r hr => by
    obtain ⟨r', hr', hheld⟩ := h.base.held k C ((owns_iff hal C).mpr hC)
    have hr' : (s.blocks.map MemBlock.span).get C = some r' := hr'
    rw [Heap.get_map, show s.blocks.get C = some r from hr] at hr'
    cases hr'
    rcases memBlockExpander_cases dev hcb with ⟨hnone, _⟩ | ⟨n, sz, ad, d', hd', hr⟩
    · cases hnone
    · rcases hr with ⟨_, hnone, _⟩ | ⟨hsz, sid, hblk, _⟩
      · cases hnone
      · cases hblk
        exact law.fresh _ _ _ _ _ _ hd' hsz _ hheld
  fresh := fun r d hd => Nat.ne_of_lt (h.base.bufBelow r d hd)

/-! ## Work in the background -/

/-- The pool has worked in the background. -/
structure Quiet (law : DeviceLaw dev) (b₀ : Nat) (s s' : Pool δ) : Prop where
  inv : Inv law b₀ s'
  vmm : s'.enableVmm = s.enableVmm
  path : ReflTransGen (Arena.Background dev s.enableVmm) s.arena s'.arena

theorem Quiet.refl (h : Inv law b₀ s) : Quiet law b₀ s s := ⟨h, rfl, .refl⟩

theorem Quiet.trans {s'' : Pool δ} (h : Quiet law b₀ s s') (h' : Quiet law b₀ s' s'') :
    Quiet law b₀ s s'' :=
  ⟨h'.inv, h'.vmm.trans h.vmm, h.path.trans (by rw [← h.vmm]; exact h'.path)⟩

/-- `Malloc` of an allocator has found the buffer `p`, not yet counted. -/
structure Found (law : DeviceLaw dev) (b₀ size p : Nat) (k : AllocatorKey) (s s' : Pool δ) :
    Prop where
  inv : Inv law b₀ s'
  vmm : s'.enableVmm = s.enableVmm
  path : ∃ A s₁ m, ReflTransGen (Arena.Background dev s.enableVmm) s.arena A ∧
    Take (callbacks dev s₁ k) size p (A.core k) m ∧ s'.arena = A.put k m

theorem Found.cons {s₁ : Pool δ} {size p : Nat} (h : Quiet law b₀ s s₁)
    (h' : Found law b₀ size p k s₁ s') : Found law b₀ size p k s s' where
  inv := h'.inv
  vmm := h'.vmm.trans h.vmm
  path := by
    obtain ⟨A, s₂, m, hpath, ht, heq⟩ := h'.path
    rw [h.vmm] at hpath
    exact ⟨A, s₂, m, h.path.trans hpath, ht, heq⟩

/-- The outcome of a search by one allocator, seen from the pool. -/
theorem malloced_lift {size : Nat} {r : Option Nat} {c : Ctx (Env δ)}
    {lay lay' : Nat → List Nat} (h : Inv law b₀ s)
    (hlay : ∀ k al, s.allocator? k = some al → AllocInv s.bufs s.blocks al lay none)
    (hal : s.allocator? k = some al)
    (hm : MemBufAllocator.Malloced (callbacks dev s k) size (s.ctx al) lay r c lay') :
    (r = none → Quiet law b₀ s (s.putCtx k c)) ∧
      ∀ p, r = some p → Found law b₀ size p k s (s.putCtx k c) := by
  have hflag : (s.ctx al).alloc.enableEagerFree = isEager dev s.enableVmm k := h.flag k al hal
  constructor
  · intro hr
    have hpath := hm.none hr
    rw [hflag, ← core_arena hal] at hpath
    have hpath := Arena.churn_path rfl hpath
    rw [← arena_putCtx hal] at hpath
    exact ⟨h.putCtx hlay hal hm.inv hm.ext (h.base.path hpath), putCtx_enableVmm .., hpath⟩
  · intro p hr
    obtain ⟨m, hpath, ht⟩ := hm.some p hr
    rw [hflag, ← core_arena hal] at hpath
    have hpath := Arena.churn_path rfl hpath
    have heq : (s.putCtx k c).arena = (s.arena.put k m).put k c.core := by
      rw [Arena.put_put, arena_putCtx hal]
    have ht' : Take (callbacks dev s k) size p ((s.arena.put k m).core k) c.core := by
      rw [Arena.put_core]
      exact ht
    refine ⟨h.putCtx hlay hal hm.inv hm.ext ?_, putCtx_enableVmm .., ?_⟩
    · rw [heq]
      exact (h.base.path hpath).take ht'
    · exact ⟨s.arena.put k m, s, c.core, hpath, ht', heq⟩

theorem malloc_spec {size : Nat} {r : Option Nat} (h : Inv law b₀ s)
    (hres : malloc dev k size s = some (r, s')) :
    (r = none → Quiet law b₀ s s') ∧ ∀ p, r = some p → Found law b₀ size p k s s' := by
  unfold malloc at hres
  split at hres
  · cases hres
    exact ⟨fun _ => Quiet.refl h, fun _ h => (by cases h)⟩
  · rename_i al hal
    obtain ⟨⟨r', c⟩, hm, hres⟩ := Option.bind_eq_some_iff.mp hres
    cases hres
    obtain ⟨lay, hlay⟩ := h.alloc
    obtain ⟨lay', hm⟩ := MemBufAllocator.malloc_spec (hlay k al hal) (h.canExpand hal) hm
    exact malloced_lift h hlay hal hm

theorem mallocExpandBlock_spec {size : Nat} {r : Option Nat} (h : Inv law b₀ s)
    (hres : mallocExpandBlock dev k size s = some (r, s')) :
    (r = none → Quiet law b₀ s s') ∧ ∀ p, r = some p → Found law b₀ size p k s s' := by
  unfold mallocExpandBlock at hres
  split at hres
  · cases hres
    exact ⟨fun _ => Quiet.refl h, fun _ h => (by cases h)⟩
  · rename_i al hal
    obtain ⟨⟨r', c⟩, hm, hres⟩ := Option.bind_eq_some_iff.mp hres
    cases hres
    obtain ⟨lay, hlay⟩ := h.alloc
    obtain ⟨lay', hm⟩ :=
      MemBufAllocator.mallocExpandBlock_spec (hlay k al hal) (h.canExpand hal) hm
    exact malloced_lift h hlay hal hm

/-- An allocator without blocks is in order. -/
theorem allocInv_empty {bufs : Heap MemBuf} {blocks : Heap MemBlock} {al : MemBufAllocator}
    (lay : Nat → List Nat) (hm : al.memBlocks = []) (hf : al.freeMemBufs = [])
    (he : al.eagerFreeMemBufs = []) : AllocInv bufs blocks al lay none := by
  have hset : ∀ st, SetOk (dataOf bufs) al.memBlocks st [] none := fun st =>
    ⟨OrdSet.sorted_nil, nofun, fun p d _ hB => by rw [hm] at hB; cases hB⟩
  refine ⟨?_, ?_, ?_, ?_, ?_, ?_, ?_, ?_⟩
  · rw [hm]
    exact List.nodup_nil
  · intro B hB
    rw [hm] at hB
    cases hB
  · intro B hB
    rw [hm] at hB
    cases hB
  · intro B hB
    rw [hm] at hB
    cases hB
  · intro B hB
    rw [hm] at hB
    cases hB
  · intro p d _ hB
    rw [hm] at hB
    cases hB
  · rw [hf]
    exact hset .idle
  · rw [he]
    exact hset .eagerFree

theorem allocator?_addAllocator (isPersistent : Bool) (streamId : Nat) (s : Pool δ)
    (k : AllocatorKey) :
    (addAllocator dev isPersistent streamId s).allocator? k =
      if k = .stream isPersistent streamId
      then some ((s.allocator? k).getD (generateAllocator dev s isPersistent streamId))
      else s.allocator? k := by
  cases k with
  | tiny => simp [allocator?, addAllocator]
  | stream b n =>
      simp only [allocator?, addAllocator]
      by_cases hk : AllocatorKey.stream b n = .stream isPersistent streamId
      · rw [if_pos hk]
        cases hk
        cases hf : s.streamIdAllocators.find? (toLex (isPersistent, streamId)) with
        | none => rw [OrdMap.find?_emplace_of_none _ hf, if_pos rfl]; rfl
        | some al => simp [OrdMap.emplace, hf]
      · have hne : toLex (b, n) ≠ toLex (isPersistent, streamId) := fun heq => by
          have heq : (b, n) = (isPersistent, streamId) := heq
          cases heq
          exact hk rfl
        rw [if_neg hk]
        cases hf : s.streamIdAllocators.find? (toLex (isPersistent, streamId)) with
        | none => rw [OrdMap.find?_emplace_of_none _ hf, if_neg hne]
        | some al => simp [OrdMap.emplace, hf]

/-- A new allocator owns nothing: the arena is the same. -/
theorem arena_addAllocator (isPersistent : Bool) (streamId : Nat) (s : Pool δ) :
    (addAllocator dev isPersistent streamId s).arena = s.arena := by
  have howns : (addAllocator dev isPersistent streamId s).arena.owns = s.arena.owns := by
    funext k B
    show (∃ al, (addAllocator dev isPersistent streamId s).allocator? k = some al ∧
      B ∈ al.memBlocks) = (∃ al, s.allocator? k = some al ∧ B ∈ al.memBlocks)
    rw [allocator?_addAllocator]
    split
    · cases s.allocator? k with
      | none => simp [generateAllocator]
      | some al => simp
    · rfl
  show Arena.mk _ _ (addAllocator dev isPersistent streamId s).arena.owns _ _ _ = _
  rw [howns]
  rfl

theorem Inv.addAllocator (h : Inv law b₀ s) (isPersistent : Bool) (streamId : Nat) :
    Inv law b₀ (addAllocator dev isPersistent streamId s) where
  base := by
    rw [arena_addAllocator]
    exact h.base
  alloc := by
    obtain ⟨lay, hlay⟩ := h.alloc
    refine ⟨lay, fun k al hal => ?_⟩
    rw [allocator?_addAllocator] at hal
    split at hal
    · cases hk : s.allocator? k with
      | none =>
          rw [hk] at hal
          cases hal
          exact allocInv_empty lay rfl rfl rfl
      | some al' =>
          rw [hk] at hal
          cases hal
          exact hlay k al' hk
    · exact hlay k al hal
  flag := fun k al hal => by
    rw [allocator?_addAllocator] at hal
    split at hal
    · rename_i hks
      cases hk : s.allocator? k with
      | none =>
          rw [hk] at hal
          cases hal
          rw [hks]
          rfl
      | some al' =>
          rw [hk] at hal
          cases hal
          exact h.flag k al' hk
    · exact h.flag k al hal

theorem getMemBufAllocator_spec {size streamId : Nat} {fromPersistentMem : Bool}
    (h : Inv law b₀ s)
    (hres : getMemBufAllocator dev size fromPersistentMem streamId s = (k, s')) :
    Quiet law b₀ s s' := by
  unfold getMemBufAllocator at hres
  split at hres
  · cases hres
    exact Quiet.refl h
  · cases hres
    refine ⟨h.addAllocator _ _, rfl, ?_⟩
    rw [arena_addAllocator]

/-! ## Eager free, defragmentation -/

theorem syncAllStreams_spec {ok : Bool} (h : Inv law b₀ s)
    (hres : syncAllStreams dev s = some (ok, s')) : Quiet law b₀ s s' := by
  obtain ⟨⟨ok', d⟩, hd, hres⟩ := Option.bind_eq_some_iff.mp hres
  cases hres
  have hback : Arena.Background dev s.enableVmm s.arena ({ s with device := d } : Pool δ).arena :=
    .sync hd
  exact ⟨⟨h.base.background hback, h.alloc, h.flag⟩, rfl, .single hback⟩

theorem eagerFreeAllocators_spec {keys : List (Lex (Bool × Nat))} {n m : Nat}
    {sizes : Nat × Nat} (h : Inv law b₀ s) (hn : n < sizeBound)
    (hres : eagerFreeAllocators dev keys n m s = some (sizes, s')) :
    ∃ t, Arena.SweepsAll dev s.arena t s'.arena ∧ Inv law b₀ s' ∧
      s'.enableVmm = s.enableVmm ∧ sizes.1 = (n + t) % sizeBound := by
  induction keys generalizing s n m with
  | nil =>
      cases hres
      exact ⟨0, .refl, h, rfl, (Nat.mod_eq_of_lt hn).symm⟩
  | cons key keys ih =>
      simp only [eagerFreeAllocators] at hres
      cases hal : s.streamIdAllocators.find? key with
      | none =>
          rw [hal] at hres
          exact ih h hn hres
      | some al =>
          rw [hal] at hres
          obtain ⟨⟨⟨n₁, m₁⟩, c⟩, hfree, hres⟩ := Option.bind_eq_some_iff.mp hres
          generalize hk : AllocatorKey.stream (ofLex key).1 (ofLex key).2 = k at hfree hres
          have hkt : k ≠ .tiny := by
            rw [← hk]
            simp
          have hal : s.allocator? k = some al := by
            rw [← hk]
            exact hal
          obtain ⟨lay, hlay⟩ := h.alloc
          obtain ⟨lay', t₁, hinv, hext, hsw, hsize⟩ :=
            MemBufAllocator.freeIdleMemsByEagerFree_spec (hlay _ al hal) hfree
          rw [← core_arena hal] at hsw
          have harena := arena_putCtx hal c
          have hall : Arena.SweepsAll dev s.arena (0 + t₁) _ :=
            Arena.SweepsAll.refl.tail hkt hsw
          rw [← harena, Nat.zero_add] at hall
          have hbase : Arena.Base law s.enableVmm b₀ (s.putCtx k c).arena := by
            have hf := hall.frame
            exact h.base.freeWork hf.work hf.blocks hf.owns hf.live hall.held
          obtain ⟨t, hsw', hinv', hvmm, hsz⟩ := ih (h.putCtx hlay hal hinv hext hbase)
            (addSize_lt _ _) hres
          refine ⟨t₁ + t, Arena.sweepsAll_trans hall hsw', hinv', ?_, ?_⟩
          · rw [hvmm, putCtx_enableVmm]
          · rw [hsz, addSize, hsize, Nat.mod_add_mod]
            show (n + t₁ % sizeBound + t) % sizeBound = _
            rw [Nat.add_right_comm, Nat.add_mod_mod, Nat.add_right_comm, Nat.add_assoc]

theorem freeIdleMemsByEagerFree_spec {sizes : Nat × Nat} (h : Inv law b₀ s)
    (hres : freeIdleMemsByEagerFree dev s = some (sizes, s')) : Quiet law b₀ s s' := by
  obtain ⟨⟨⟨total, real⟩, s₁⟩, hsw, hres⟩ := Option.bind_eq_some_iff.mp hres
  cases hres
  obtain ⟨t, hsw, hinv, hvmm, hsize⟩ := eagerFreeAllocators_spec
    (s := { s with eagerFreeCount := addSize s.eagerFreeCount 1 })
    ⟨h.base, h.alloc, h.flag⟩ (by decide) hsw
  rw [Nat.zero_add] at hsize
  have hback : Arena.Background dev s.enableVmm s.arena
      ({ s₁ with memStat := { s₁.memStat with
        eagerFreeSize := addSize s₁.memStat.eagerFreeSize total } } : Pool δ).arena := by
    rw [show total = t % sizeBound from hsize]
    exact .sweep hsw
  exact ⟨⟨hinv.base.stat _, hinv.alloc, hinv.flag⟩, hvmm, .single hback⟩

theorem defragMemory_spec (h : Inv law b₀ s) (hres : defragMemory dev s = some s') :
    Quiet law b₀ s s' := by
  unfold defragMemory at hres
  split at hres
  · cases hres
    exact Quiet.refl h
  · split at hres
    · cases hres
      exact Quiet.refl h
    · split at hres
      · cases hres
        exact Quiet.refl h
      · obtain ⟨⟨ok, s₁⟩, hsync, hres⟩ := Option.bind_eq_some_iff.mp hres
        have h₁ := syncAllStreams_spec h hsync
        dsimp only at hres
        split at hres
        · cases hres
          exact h₁
        · obtain ⟨⟨_, s₂⟩, hfree, hres⟩ := Option.bind_eq_some_iff.mp hres
          cases hres
          have h₂ := h₁.trans (freeIdleMemsByEagerFree_spec h₁.inv hfree)
          exact ⟨⟨h₂.inv.base, h₂.inv.alloc, h₂.inv.flag⟩, h₂.vmm, h₂.path⟩

/-! ## The search for a buffer -/

theorem mallocFromAnother_spec {size streamId : Nat} {fromPersistentMem : Bool}
    {k k' : AllocatorKey} {r : Option Nat} (h : Inv law b₀ s)
    (hres : mallocFromAnother dev size fromPersistentMem streamId k s = some ((r, k'), s')) :
    (r = none → Quiet law b₀ s s') ∧ ∀ p, r = some p → Found law b₀ size p k' s s' := by
  unfold mallocFromAnother at hres
  split at hres
  · generalize hget : getMemBufAllocator dev size (!fromPersistentMem) streamId s = ks at hres
    obtain ⟨k₁, s₁⟩ := ks
    have h₁ := getMemBufAllocator_spec h hget
    obtain ⟨⟨r', s₂⟩, hm, hres⟩ := Option.bind_eq_some_iff.mp hres
    cases hres
    obtain ⟨hnone, hsome⟩ := malloc_spec h₁.inv hm
    exact ⟨fun hr => h₁.trans (hnone hr), fun p hr => Found.cons h₁ (hsome p hr)⟩
  · cases hres
    exact ⟨fun _ => Quiet.refl h, fun _ h => (by cases h)⟩

/-- What a search can end with. -/
def AttemptSpec (law : DeviceLaw dev) (b₀ size : Nat) (s s' : Pool δ) : Attempt → Prop
  | .found p k => Found law b₀ size p k s s'
  | .syncFailed => Quiet law b₀ s s'
  | .exhausted _ => Quiet law b₀ s s'

theorem AttemptSpec.cons {size : Nat} {s₁ : Pool δ} {r : Attempt} (h : Quiet law b₀ s s₁)
    (h' : AttemptSpec law b₀ size s₁ s' r) : AttemptSpec law b₀ size s s' r := by
  cases r with
  | found p k => exact Found.cons h h'
  | syncFailed => exact Quiet.trans h h'
  | exhausted k => exact Quiet.trans h h'

/-- The last attempt before events are looked at. -/
theorem expand_attempt {size : Nat} {r : Attempt} (h : Inv law b₀ s)
    (hres : (do
      let (p, s) ← mallocExpandBlock dev k size s
      match p with
      | some p => some (Attempt.found p k, s)
      | none => some (Attempt.exhausted k, s)) = some (r, s')) :
    AttemptSpec law b₀ size s s' r := by
  obtain ⟨⟨p, s₁⟩, hm, hres⟩ := Option.bind_eq_some_iff.mp hres
  obtain ⟨hnone, hsome⟩ := mallocExpandBlock_spec h hm
  cases p with
  | none =>
      cases hres
      exact hnone rfl
  | some p =>
      cases hres
      exact hsome p rfl

theorem mallocAfterEagerFree_spec {size : Nat} {r : Attempt} (h : Inv law b₀ s)
    (hres : mallocAfterEagerFree dev size k s = some (r, s')) :
    AttemptSpec law b₀ size s s' r := by
  unfold mallocAfterEagerFree at hres
  dsimp only at hres
  split at hres
  · obtain ⟨⟨ok, s₁⟩, hsync, hres⟩ := Option.bind_eq_some_iff.mp hres
    have h₁ := syncAllStreams_spec h hsync
    dsimp only at hres
    split at hres
    · cases hres
      exact h₁
    · obtain ⟨⟨_, s₂⟩, hfree, hres⟩ := Option.bind_eq_some_iff.mp hres
      have h₂ := h₁.trans (freeIdleMemsByEagerFree_spec h₁.inv hfree)
      obtain ⟨⟨p, s₃⟩, hm, hres⟩ := Option.bind_eq_some_iff.mp hres
      obtain ⟨hnone, hsome⟩ := malloc_spec h₂.inv hm
      cases p with
      | some p =>
          cases hres
          exact Found.cons h₂ (hsome p rfl)
      | none =>
          have h₃ := h₂.trans (hnone rfl)
          exact AttemptSpec.cons h₃ (expand_attempt h₃.inv hres)
  · exact expand_attempt h hres

theorem findMemBuf_spec {size streamId : Nat} {fromPersistentMem : Bool} {r : Attempt}
    (h : Inv law b₀ s)
    (hres : findMemBuf dev size fromPersistentMem streamId s = some (r, s')) :
    AttemptSpec law b₀ size s s' r := by
  unfold findMemBuf at hres
  generalize hget : getMemBufAllocator dev size fromPersistentMem streamId s = ks at hres
  obtain ⟨k, s₁⟩ := ks
  have h₁ := getMemBufAllocator_spec h hget
  obtain ⟨⟨p, s₂⟩, hm, hres⟩ := Option.bind_eq_some_iff.mp hres
  obtain ⟨hnone, hsome⟩ := malloc_spec h₁.inv hm
  cases p with
  | some p =>
      cases hres
      exact Found.cons h₁ (hsome p rfl)
  | none =>
      have h₂ := h₁.trans (hnone rfl)
      obtain ⟨⟨⟨p, k'⟩, s₃⟩, hother, hres⟩ := Option.bind_eq_some_iff.mp hres
      obtain ⟨hnone, hsome⟩ := mallocFromAnother_spec h₂.inv hother
      cases p with
      | some p =>
          cases hres
          exact Found.cons h₂ (hsome p rfl)
      | none =>
          have h₃ := h₂.trans (hnone rfl)
          exact AttemptSpec.cons h₃ (mallocAfterEagerFree_spec h₃.inv hres)

end Pool

end Ccbase.Memory
