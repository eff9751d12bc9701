import Ccbase.Memory.Counters
import Ccbase.Memory.Tame
import Ccbase.Memory.LinearDevice

/-!
# `ReleaseDeviceRes`

The pool deletes the buffers that the address map points to, releases the allocators of the
streams and resets the statistics. The tiny allocator is not among those that are released: what
it holds it keeps, and the counters start at zero all the same.

Nothing is asked of the state before a release but that clients have brought it about. What is
left of it in memory lies in blocks below the next one to be made, and the invariants of the pool
look at the blocks from there on.
-/

namespace Ccbase.Memory

open Ccbase.Lib

variable {ε δ : Type} {dev : Device δ}

namespace Pool

variable {s s' : Pool δ}

/-! ## What a release does -/

theorem deleteAll_all {α : Type} {P : α → Prop} {h : Heap α} (hall : h.All P) (ps : List Nat) :
    (MemBufAllocator.deleteAll ps h).All P := by
  unfold MemBufAllocator.deleteAll
  induction ps generalizing h with
  | nil => exact hall
  | cons p ps ih => exact ih (hall.delete p)

theorem deleteAll_next {α : Type} (h : Heap α) (ps : List Nat) :
    (MemBufAllocator.deleteAll ps h).next = h.next := by
  unfold MemBufAllocator.deleteAll
  induction ps generalizing h with
  | nil => rfl
  | cons p ps ih => exact ih (h.delete p)

theorem cleanBlocks_eq {cb : Callbacks ε} {ps : List Nat} {c c' : Ctx ε}
    (hres : MemBufAllocator.cleanBlocks cb ps c = some c') :
    c'.bufs = c.bufs ∧ c'.blocks = c.blocks := by
  induction ps generalizing c with
  | nil =>
      cases hres
      exact ⟨rfl, rfl⟩
  | cons p ps ih =>
      simp only [MemBufAllocator.cleanBlocks] at hres
      split at hres
      · exact ih hres
      · obtain ⟨⟨_, env⟩, -, hres⟩ := Option.bind_eq_some_iff.mp hres
        have heq := ih hres
        exact heq

theorem releaseMethod_made {cb : Callbacks ε} {c c' : Ctx ε}
    (hres : MemBufAllocator.releaseDeviceRes cb c = some c') (hm : BlocksMade c.bufs c.blocks) :
    BlocksMade c'.bufs c'.blocks := by
  obtain ⟨c₁, hclean, hres⟩ := Option.bind_eq_some_iff.mp hres
  obtain ⟨hbufs, hblocks⟩ := cleanBlocks_eq hclean
  cases hres
  unfold BlocksMade
  rw [deleteAll_next, hbufs, hblocks]
  exact deleteAll_all (deleteAll_all hm _) _

theorem Tame.releaseAllocators {keys : List (Lex (Bool × Nat))} (h : Tame s)
    (hres : releaseAllocators dev keys s = some s') :
    Follows s s' ∧ s'.tinyAllocator = s.tinyAllocator ∧
      s'.addrMemBufAllocators = s.addrMemBufAllocators := by
  induction keys generalizing s with
  | nil =>
      cases hres
      exact ⟨.refl h, rfl, rfl⟩
  | cons key keys ih =>
      simp only [Pool.releaseAllocators] at hres
      cases hal : s.streamIdAllocators.find? key with
      | none =>
          rw [hal] at hres
          exact ih h hres
      | some al =>
          rw [hal] at hres
          obtain ⟨c, hrel, hres⟩ := Option.bind_eq_some_iff.mp hres
          have hput : Follows s (s.putCtx (.stream (ofLex key).1 (ofLex key).2) c) :=
            h.same rfl (releaseMethod_made hrel h.made) h.keys
          obtain ⟨hf, htiny, haddrs⟩ := ih hput.tame hres
          exact ⟨hput.trans hf, htiny, haddrs⟩

/-- What a release leaves. -/
structure AfterRelease (s s' : Pool δ) : Prop where
  follows : Follows s s'
  tiny : s'.tinyAllocator = s.tinyAllocator
  streams : s'.streamIdAllocators = OrdMap.empty
  addrs : s'.addrMemBufAllocators = ∅
  pairs : s'.streamPairMemBufs = ∅
  memStat : s'.memStat = MemStat.reset

theorem Tame.releaseDeviceRes (h : Tame s) (hres : releaseDeviceRes dev s = some s') :
    AfterRelease s s' := by
  obtain ⟨s₁, hall, hres⟩ := Option.bind_eq_some_iff.mp hres
  cases hres
  have hclear : Follows s { s with
      bufs := MemBufAllocator.deleteAll (s.addrMemBufAllocators.entries.map fun e => e.2.1) s.bufs
      addrMemBufAllocators := ∅ } :=
    h.same rfl (deleteAll_all h.made _) fun a p hl => by cases hl
  obtain ⟨hf, htiny, haddrs⟩ := hclear.tame.releaseAllocators hall
  have hf := hclear.trans hf
  exact ⟨hf.trans (hf.tame.same rfl hf.tame.made hf.tame.keys), htiny, rfl, haddrs, rfl, rfl⟩

/-- The states of a pool that any client may bring about. -/
inductive Reachable (dev : Device δ) (enableVmm enableTiny : Bool) (d : δ) : Pool δ → Prop where
  | init : Reachable dev enableVmm enableTiny d (Pool.init enableVmm enableTiny d)
  | call {s s' : Pool δ} {c : Call} (h : Reachable dev enableVmm enableTiny d s)
      (hs : Step dev s c s') : Reachable dev enableVmm enableTiny d s'
  | continuous {s s' : Pool δ} {sizeList addrs : List Nat} {streamId : Nat}
      (h : Reachable dev enableVmm enableTiny d s)
      (hs : allocContinuousTensorMem dev sizeList streamId s = some (addrs, s')) :
      Reachable dev enableVmm enableTiny d s'
  | release {s s' : Pool δ} (h : Reachable dev enableVmm enableTiny d s)
      (hs : releaseDeviceRes dev s = some s') : Reachable dev enableVmm enableTiny d s'
  | setEnableVmm {s : Pool δ} (b : Bool) (h : Reachable dev enableVmm enableTiny d s) :
      Reachable dev enableVmm enableTiny d (s.setEnableVmm b)
  | setMemAllocUintSize {s : Pool δ} (commonSize persistSize : Nat)
      (h : Reachable dev enableVmm enableTiny d s) :
      Reachable dev enableVmm enableTiny d (s.setMemAllocUintSize commonSize persistSize)
  | resetMaxMemReserved {s : Pool δ} (h : Reachable dev enableVmm enableTiny d s) :
      Reachable dev enableVmm enableTiny d s.resetMaxMemReserved
  | resetMaxMemAllocated {s : Pool δ} (h : Reachable dev enableVmm enableTiny d s) :
      Reachable dev enableVmm enableTiny d s.resetMaxMemAllocated

theorem Tame.init (enableVmm enableTiny : Bool) (d : δ) :
    Tame (Pool.init enableVmm enableTiny d) := by
  have htiny : ∀ al, (Pool.init enableVmm enableTiny d).tinyAllocator = some al →
      al = { enableEagerFree := false, isPersistent := false, streamId := 0 } := by
    intro al hal
    unfold Pool.init at hal
    dsimp only at hal
    split at hal
    · exact (Option.some.inj hal).symm
    · cases hal
  refine ⟨fun _ _ hp => (by cases hp), fun al hal => ?_, fun al hal _ => ?_,
    fun _ _ hl => (by cases hl)⟩
  · rw [htiny al hal]
  · rw [htiny al hal]
    exact ⟨rfl, rfl⟩

theorem Tame.step {c : Call} (h : Tame s) (hs : Step dev s c s') : Tame s' := by
  cases c with
  | alloc size b n addr => exact (h.allocTensorMem hs).tame
  | free addr =>
      cases hs
      exact (h.doFreeTensorMem addr).tame
  | freePart freeAddrs keepAddrs keepAddrSizes =>
      cases hs
      exact (h.freePartTensorMems freeAddrs keepAddrs keepAddrSizes).tame
  | defrag => exact (h.defragMemory hs).tame
  | record taskId user mas event =>
      cases hs
      exact (Tame.foldl (fun _ ma h => h.recordOne dev taskId user event ma) _ h).tame
  | wait taskId user mem =>
      cases hs
      unfold Pool.waitEvent
      split
      · exact h
      · exact (h.waitPair taskId _).tame
  | waitMem taskId mem order =>
      obtain ⟨-, hs⟩ := hs
      cases hs
      exact (Tame.foldl (fun _ key h => h.waitPair taskId key) _ h).tame
  | syncAllEvents =>
      cases hs
      exact (h.doSyncAllEvents dev).tame

theorem Reachable.tame {enableVmm enableTiny : Bool} {d : δ}
    (h : Reachable dev enableVmm enableTiny d s) : Tame s := by
  induction h with
  | init => exact Tame.init ..
  | call _ hs ih => exact ih.step hs
  | continuous _ hs ih => exact (ih.allocContinuousTensorMem hs).tame
  | release _ hs ih => exact (ih.releaseDeviceRes hs).follows.tame
  | setEnableVmm _ _ ih => exact ⟨ih.made, ih.eager, ih.bare, ih.keys⟩
  | setMemAllocUintSize _ _ _ ih => exact ⟨ih.made, ih.eager, ih.bare, ih.keys⟩
  | resetMaxMemReserved _ ih => exact ⟨ih.made, ih.eager, ih.bare, ih.keys⟩
  | resetMaxMemAllocated _ ih => exact ⟨ih.made, ih.eager, ih.bare, ih.keys⟩

/-- The pool is as good as new. -/
structure Released (dev : Device δ) (s' : Pool δ) : Prop where
  noBlocks : ∀ k al, s'.allocator? k = some al → al.memBlocks = []
  noFreeBufs : ∀ k al, s'.allocator? k = some al →
    al.freeMemBufs = [] ∧ al.eagerFreeMemBufs = []
  noLiveBufs : s'.addrMemBufAllocators.entries = []
  memStat : s'.memStat = MemStat.reset
  counters : ∀ calls s'', Run (fun s c s' => Step dev s c s' ∧ noEventCall c) s' calls s'' →
    s''.memStat.usedSize ≤ s''.memStat.allocSize ∧ s''.memStat.allocSize = blockTotal s''

/-- Without a block in the tiny allocator the counters start out right. -/
theorem AfterRelease.countInv (law : DeviceLaw dev) (hr : AfterRelease s s')
    (hheld : ¬ TinyHeld s) : CountInv law s'.blocks.next s' := by
  have hal : ∀ k al, s'.allocator? k = some al → k = .tiny ∧ s'.tinyAllocator = some al ∧
      al.memBlocks = [] := by
    intro k al hal
    cases k with
    | tiny =>
        refine ⟨rfl, hal, not_not.mp fun hne => hheld ⟨al, ?_, hne⟩⟩
        rw [← hr.tiny]
        exact hal
    | stream b n =>
        have hal : s'.streamIdAllocators.find? (toLex (b, n)) = some al := hal
        rw [hr.streams] at hal
        cases hal
  have howns : ∀ k B, ¬ s'.arena.owns k B := by
    rintro k B ⟨al, h, hB⟩
    rw [(hal k al h).2.2] at hB
    cases hB
  have hold : ∀ p d, s'.arena.bufs.get p = some d → d.memBlock < s'.blocks.next := by
    intro p d hp
    obtain ⟨b, hb, rfl⟩ := dataOf_get_some hp
    exact hr.follows.tame.made p b hb
  have hzero : ∀ P : MemBufStatus → Nat → Bool,
      (∀ st B, P st B = true → s'.blocks.next ≤ B) →
      s'.arena.bufs.sum (BufData.sizeWhere P) = 0 := by
    intro P hP
    refine Heap.sum_eq_zero fun p d hp => if_neg fun htrue => ?_
    exact absurd (hold p d hp) (Nat.not_lt.mpr (hP _ _ htrue))
  have hsize : s'.arena.heldSize = 0 := by
    classical
    unfold Arena.heldSize
    refine Finset.sum_eq_zero fun B hB => ?_
    obtain ⟨k, hk⟩ := (Finset.mem_filter.mp hB).2
    exact absurd hk (howns k B)
  have hstat : s'.arena.env.memStat = MemStat.reset := hr.memStat
  have hbase : Arena.Base law s'.enableVmm s'.blocks.next s'.arena := by
    refine ⟨Nat.le_refl _, ?_, ?_, ?_, hold, ?_, ?_, ?_⟩
    · exact fun k B hB => absurd hB (howns k B)
    · exact fun k _ B hB => absurd hB (howns k B)
    · exact fun k B hB => absurd hB (howns k B)
    · exact fun p d hp hlow => absurd (hold p d hp) (Nat.not_lt.mpr hlow)
    · exact fun p d hp hlow => absurd (hold p d hp) (Nat.not_lt.mpr hlow)
    · intro a p k hl
      have hl : s'.addrMemBufAllocators.lookup a = some (p, k) := hl
      rw [hr.addrs] at hl
      cases hl
  refine ⟨⟨hbase, ⟨fun _ => [], fun k al h => ?_⟩, fun k al h => ?_⟩, ?_, ?_, ?_, ⟨?_, ?_, ?_⟩⟩
  · obtain ⟨rfl, htiny, hnil⟩ := hal k al h
    obtain ⟨hf, he⟩ := hr.follows.tame.bare al htiny hnil
    exact allocInv_empty _ hnil hf he
  · obtain ⟨rfl, htiny, -⟩ := hal k al h
    exact hr.follows.tame.eager al htiny
  · exact fun k _ B _ _ _ hB => absurd hB (howns k B)
  · exact fun k B _ hB => absurd hB (howns k B)
  · show s'.streamPairMemBufs.entries.isEmpty = true
    rw [hr.pairs]
    rfl
  · rw [hstat, hzero (inUseFrom _) fun st B htrue =>
      of_decide_eq_true (Bool.and_eq_true_iff.mp htrue).1]
    rfl
  · rw [hstat, hsize]
    rfl
  · rw [hsize, hzero (fromBlock _) fun st B htrue => of_decide_eq_true htrue]

/-- After `ReleaseDeviceRes` the pool holds nothing and counts right from then on exactly if the
tiny allocator, if there is one, had no block. -/
theorem released_iff_tiny_bare (law : DeviceLaw dev) (hdis : law.Disjoint) (hbd : dev.Bounded)
    {enableVmm enableTiny : Bool} {d : δ} (h : Reachable dev enableVmm enableTiny d s)
    (hres : releaseDeviceRes dev s = some s') :
    Released dev s' ↔ ∀ al, s.tinyAllocator = some al → al.memBlocks = [] := by
  have hr := h.tame.releaseDeviceRes hres
  constructor
  · intro hrel al hal
    rw [← hr.tiny] at hal
    exact hrel.noBlocks .tiny al hal
  · intro hbare
    have hinv := hr.countInv law fun ⟨al, hal, hne⟩ => hne (hbare al hal)
    have htiny : ∀ k al, s'.allocator? k = some al → s'.tinyAllocator = some al := by
      intro k al hal
      cases k with
      | tiny => exact hal
      | stream b n =>
          have hal : s'.streamIdAllocators.find? (toLex (b, n)) = some al := hal
          rw [hr.streams] at hal
          cases hal
    have hnil : ∀ k al, s'.allocator? k = some al → al.memBlocks = [] := by
      intro k al hal
      refine hbare al ?_
      rw [← hr.tiny]
      exact htiny k al hal
    refine ⟨hnil, fun k al hal => ?_, ?_, hr.memStat, fun calls s'' hrun => ?_⟩
    · exact hr.follows.tame.bare al (htiny k al hal) (hnil k al hal)
    · rw [hr.addrs]
      rfl
    · have hlast := hrun.state_inv (I := CountInv law s'.blocks.next) hinv
        fun s c s' hI hs => hI.step hdis hbd hs.2 hs.1
      exact ⟨hlast.counters.2.2, hlast.counters.2.1⟩

/-- An allocation of 1000 bytes, and a release. -/
theorem released_iff_tiny_bare_one :
    ∃ s s', Reachable (linearDevice false false) false false (LinearState.init 0) s ∧
      releaseDeviceRes (linearDevice false false) s = some s' ∧ s.memStat.usedSize = 1024 ∧
      (Released (linearDevice false false) s' ↔
        ∀ al, s.tinyAllocator = some al → al.memBlocks = []) := by
  have hexec : ((execOne (linearDevice false false) (Pool.init false false (LinearState.init 0))
      (.alloc 1000 false 0 512)).bind fun s =>
        (releaseDeviceRes (linearDevice false false) s).map fun _ => s.memStat.usedSize) =
      some 1024 := by
    decide +kernel
  obtain ⟨s, hs, hrest⟩ := Option.bind_eq_some_iff.mp hexec
  obtain ⟨s', hres, hused⟩ := Option.map_eq_some_iff.mp hrest
  have hreach := Reachable.call (Reachable.init (d := LinearState.init 0)) (step_of_execOne hs)
  exact ⟨s, s', hreach, hres, hused, released_iff_tiny_bare (linearLaw false false)
    (linearLaw_disjoint false false) (linearDevice_bounded false false) hreach hres⟩

/-- With a tiny allocator: it keeps its block over the release, and the next request of 512 bytes,
which is served from that block, is counted as used memory while none is counted as
allocated. -/
theorem release_keeps_tiny :
    ∃ s s' s'', Reachable (linearDevice false false) false true (LinearState.init 0) s ∧
      releaseDeviceRes (linearDevice false false) s = some s' ∧
      Step (linearDevice false false) s' (.alloc 512 false 0 1024) s'' ∧
      ¬ Released (linearDevice false false) s' ∧ s''.memStat.allocSize = 0 ∧
      s''.memStat.usedSize = 512 ∧ blockTotal s'' = 2 ^ 20 := by
  have hexec : ((execOne (linearDevice false false) (Pool.init false true (LinearState.init 0))
      (.alloc 512 false 0 512)).bind fun s =>
        (releaseDeviceRes (linearDevice false false) s).bind fun s' =>
          (execOne (linearDevice false false) s' (.alloc 512 false 0 1024)).map fun s'' =>
            (s''.memStat.allocSize, s''.memStat.usedSize, blockTotal s'')) =
      some (0, 512, 2 ^ 20) := by
    decide +kernel
  obtain ⟨s, hs, hrest⟩ := Option.bind_eq_some_iff.mp hexec
  obtain ⟨s', hres, hrest⟩ := Option.bind_eq_some_iff.mp hrest
  obtain ⟨s'', hs'', hval⟩ := Option.map_eq_some_iff.mp hrest
  simp only [Prod.mk.injEq] at hval
  have hreach := Reachable.call (Reachable.init (d := LinearState.init 0)) (step_of_execOne hs)
  have hstep := step_of_execOne hs''
  refine ⟨s, s', s'', hreach, hres, hstep, fun hrel => ?_, hval⟩
  have hle := (hrel.counters _ _ (Run.single ⟨hstep, trivial⟩)).1
  omega

end Pool

end Ccbase.Memory
