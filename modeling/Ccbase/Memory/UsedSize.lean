import Ccbase.Memory.PartFree
import Ccbase.Memory.Counters

/-!
# `used_size_` and the address map

Without events the buffers in use are those of the address map, and none of them is empty. So
`used_size_` is the sum of the sizes in the map, over `FreePartTensorMems` as well.

An aligned size of zero breaks this: its buffer has an address that the next buffer has too, and
the map holds one of the two.
-/

namespace Ccbase.Memory

open Ccbase.Lib Relation

variable {δ : Type} {dev : Device δ}

namespace Arena

variable {law : DeviceLaw dev} {vmm : Bool} {b₀ : Nat} {A A' : Arena δ}

theorem Base.free {addr : Nat} {ok : Bool} (h : Base law vmm b₀ A)
    (hf : FreeStep addr A ok A') : Base law vmm b₀ A' := by
  cases hf with
  | absent _ => exact h
  | release hr => exact h.release hr
  | retain hr => exact h.retain hr

/-! ## The map holds what is in use -/

/-- The buffers in use are not empty, and each is in the address map. -/
structure Mapped (A : Arena δ) : Prop where
  pos : ∀ p d, A.bufs.get p = some d → ¬ d.status.isFree → 0 < d.size
  mapped : ∀ p d, A.bufs.get p = some d → ¬ d.status.isFree →
    ∃ k, A.live.lookup d.addr = some (p, k)

theorem Mapped.calm (h : Mapped A) (hc : Calm A A') : Mapped A' where
  pos p d hp hst := h.pos p d ((hc.live_iff p d hst).mp hp) hst
  mapped p d hp hst := by
    rw [hc.live]
    exact h.mapped p d ((hc.live_iff p d hst).mp hp) hst

theorem Mapped.pos_hand {size p : Nat} {k : AllocatorKey} {d₀ : BufData} (h : Mapped A)
    (hf : HandFrame size p k d₀ A A') (hsize : 0 < size) {q : Nat} {d : BufData}
    (hq : A'.bufs.get q = some d) (hst : ¬ d.status.isFree) : 0 < d.size := by
  rcases hf.get_back hq with ⟨-, rfl⟩ | ⟨-, hq⟩
  · exact Nat.lt_of_lt_of_le hsize hf.size
  · exact h.pos q d hq hst

theorem Mapped.hand {size p : Nat} {k : AllocatorKey} {d₀ : BufData} (h : Mapped A)
    (hf : HandFrame size p k d₀ A A') (hsize : 0 < size)
    (hfresh : A.live.lookup d₀.addr = none) : Mapped A' := by
  have hlive : A'.live = A.live.insert d₀.addr (p, k) := by
    rw [hf.live, hfresh]
    rfl
  refine ⟨fun q d hq hst => h.pos_hand hf hsize hq hst, fun q d hq hst => ?_⟩
  rw [hlive]
  rcases hf.get_back hq with ⟨rfl, rfl⟩ | ⟨-, hq⟩
  · exact ⟨k, AList.lookup_insert _⟩
  · obtain ⟨k', hl⟩ := h.mapped q d hq hst
    have hne : d.addr ≠ d₀.addr := fun heq => by
      rw [heq, hfresh] at hl
      cases hl
    exact ⟨k', by rw [AList.lookup_insert_ne hne]; exact hl⟩

theorem Mapped.free {addr : Nat} {ok : Bool} (hb : Base law vmm b₀ A) (h : Mapped A)
    (hf : FreeStep addr A ok A') : Mapped A' := by
  have hframe := hf.frame hb
  refine ⟨fun q e he hst => ?_, fun q e he hst => ?_⟩
  · obtain ⟨e₀, he₀, hst₀, heq⟩ := hframe.back q e he hst
    rw [heq]
    exact h.pos q e₀ he₀ hst₀
  · obtain ⟨e₀, he₀, hst₀, heq⟩ := hframe.back q e he hst
    obtain ⟨k, hl⟩ := h.mapped q e₀ he₀ hst₀
    have haddr : e.addr = e₀.addr := by rw [heq]
    rw [haddr]
    cases hf with
    | absent _ => exact ⟨k, hl⟩
    | retain hr =>
        cases hr
        exact ⟨k, hl⟩
    | release hr =>
        cases hr with
        | @mk p k' d D hlive hp hquiet hD =>
            -- the buffer that is released is free now
            have hne : e₀.addr ≠ addr := fun heq' => by
              rw [heq', hlive] at hl
              cases hl
              have hq := ((FreeWork.merges hD).live_iff hst).mp he
              rw [Heap.get_modify_self, hp] at hq
              cases hq
              exact hst (.inl rfl)
            exact ⟨k, (hframe.lookup _ hne).trans hl⟩

theorem Mapped.cut {p n : Nat} {rest : BufData} (h : Mapped A) (h0 : 0 < n)
    (hrest : 0 < rest.size) (hc : Cut p n rest A A') : Mapped A' := by
  obtain ⟨k, d, hf⟩ := hc.frame
  have hstay : ∀ a v, A.live.lookup a = some v → A'.live.lookup a = some v := by
    intro a v hl
    have hne : a ≠ rest.addr := fun heq => by
      rw [heq, hf.fresh] at hl
      cases hl
    rw [hf.lookup, if_neg hne]
    exact hl
  refine ⟨fun q e he hst => ?_, fun q e he hst => ?_⟩
  · rcases hf.cases he with ⟨-, rfl⟩ | ⟨-, rfl⟩ | ⟨-, -, he⟩
    · exact h0
    · exact hrest
    · exact h.pos q e he hst
  · rcases hf.cases he with ⟨rfl, rfl⟩ | ⟨rfl, rfl⟩ | ⟨-, -, he⟩
    · exact ⟨k, hstay _ _ hf.live⟩
    · exact ⟨k, by rw [hf.lookup, if_pos rfl]⟩
    · obtain ⟨k', hl⟩ := h.mapped q e he hst
      exact ⟨k', hstay _ _ hl⟩

theorem mem_entries_iff {a : Nat} {v : Nat × AllocatorKey} :
    (⟨a, v⟩ : Sigma fun _ : Nat => Nat × AllocatorKey) ∈ A.live.entries ↔
      A.live.lookup a = some v :=
  AList.mem_lookup_iff.symm

/-- The buffers in use have the same size together as the buffers of the map. -/
theorem Mapped.sum_eq (hb : Base law vmm 0 A) (h : Mapped A) :
    (A.live.entries.map fun e => Heap.weight BufData.size (A.bufs.get e.2.1)).sum =
      A.bufs.sum (BufData.sizeWhere (inUseFrom 0)) := by
  have hnodup : (A.live.entries.map fun e => e.2.1).Nodup := by
    refine List.Nodup.map_on (fun e he e' he' heq => ?_) A.live.nodupKeys.nodup
    obtain ⟨a, p, k⟩ := e
    obtain ⟨a', p', k'⟩ := e'
    have heq : p = p' := heq
    subst heq
    have hl := mem_entries_iff.mp he
    have hl' := mem_entries_iff.mp he'
    obtain ⟨d, hd, ha, -, -⟩ := hb.live a p k hl
    obtain ⟨d', hd', ha', -, -⟩ := hb.live a' p k' hl'
    rw [hd] at hd'
    cases hd'
    obtain rfl : a = a' := ha.symm.trans ha'
    rw [hl] at hl'
    cases hl'
    rfl
  have hmap : (A.live.entries.map fun e => Heap.weight BufData.size (A.bufs.get e.2.1)) =
      (A.live.entries.map fun e => e.2.1).map fun p => Heap.weight BufData.size (A.bufs.get p) := by
    rw [List.map_map]
    rfl
  rw [hmap, ← List.sum_toFinset _ hnodup, Heap.sum_eq_finset]
  have hin : ∀ p ∈ (A.live.entries.map fun e => e.2.1).toFinset, ∃ d, A.bufs.get p = some d ∧
      ¬ d.status.isFree := by
    intro p hp
    obtain ⟨⟨a, p', k⟩, he, rfl⟩ := List.mem_map.mp (List.mem_toFinset.mp hp)
    obtain ⟨d, hd, -, hst, -⟩ := hb.live a p' k (mem_entries_iff.mp he)
    exact ⟨d, hd, hst⟩
  calc ∑ p ∈ (A.live.entries.map fun e => e.2.1).toFinset,
        Heap.weight BufData.size (A.bufs.get p)
      = ∑ p ∈ (A.live.entries.map fun e => e.2.1).toFinset,
          Heap.weight (BufData.sizeWhere (inUseFrom 0)) (A.bufs.get p) := by
        refine Finset.sum_congr rfl fun p hp => ?_
        obtain ⟨d, hd, hst⟩ := hin p hp
        rw [hd, Heap.weight_some, Heap.weight_some]
        exact (if_pos (inUseFrom_of_not_free hst (Nat.zero_le _))).symm
    _ = ∑ p ∈ Finset.range A.bufs.next,
          Heap.weight (BufData.sizeWhere (inUseFrom 0)) (A.bufs.get p) := by
        refine Finset.sum_subset (fun p hp => ?_) fun p hp hout => ?_
        · obtain ⟨d, hd, -⟩ := hin p hp
          exact Finset.mem_range.mpr (Heap.lt_next hd)
        · cases hd : A.bufs.get p with
          | none => rfl
          | some d =>
              rw [Heap.weight_some]
              by_cases hst : d.status.isFree
              · exact if_neg (by rw [inUseFrom_of_free hst]; exact Bool.false_ne_true)
              · obtain ⟨k, hl⟩ := h.mapped p d hd hst
                refine absurd (List.mem_toFinset.mpr (List.mem_map.mpr ?_)) hout
                exact ⟨⟨d.addr, (p, k)⟩, mem_entries_iff.mpr hl, rfl⟩

/-! ## Peaks -/

/-- The peak is looked at whenever a buffer is handed out. -/
theorem Hand.peak {size p : Nat} {k : AllocatorKey} (h : Hand dev size p k A A') :
    A'.env.memStat.peakSize =
      max A.env.memStat.peakSize A'.env.memStat.usedSize := by
  cases h with
  | @mk s m d ht hd =>
      have hpeak : m.env.memStat.peakSize = A.env.memStat.peakSize := by
        cases ht with
        | idle _ _ _ _ => rfl
        | eager _ _ _ _ hcb =>
            obtain ⟨d', -, rfl⟩ := Pool.memMapper_eq dev hcb
            rfl
      rw [← hpeak]
      unfold enter
      split <;> rfl

/-! ## The counters of a part free -/

/-- A cut leaves all sums as they are. -/
theorem Cut.sums {p n : Nat} {rest : BufData} (hb : Base law vmm b₀ A) (hc : Cut p n rest A A') :
    A'.bufs.sum (BufData.sizeWhere (inUseFrom b₀)) =
        A.bufs.sum (BufData.sizeWhere (inUseFrom b₀)) ∧
      A'.bufs.sum (BufData.sizeWhere (fromBlock b₀)) =
        A.bufs.sum (BufData.sizeWhere (fromBlock b₀)) := by
  obtain ⟨k, d, hf⟩ := hc.frame
  obtain ⟨d', hd', -, hst, hB⟩ := hb.live _ _ _ hf.live
  rw [hf.get] at hd'
  cases hd'
  have hlow := hb.low k d.memBlock hB
  have hbufs : A'.bufs = (A.bufs.new rest).modify p fun x => { x with size := n } := by
    cases hc
    rfl
  rw [hbufs]
  refine ⟨sum_sizeWhere_cut hf.get hf.le hf.rest_size ?_,
    sum_sizeWhere_cut hf.get hf.le hf.rest_size ?_⟩
  · rw [hf.rest_block, inUseFrom_of_not_free hf.rest_status hlow, inUseFrom_of_not_free hst hlow]
  · rw [hf.rest_block]
    rfl

theorem Counted.cut {p n : Nat} {rest : BufData} (hb : Base law vmm b₀ A) (h : Counted b₀ A)
    (hc : Cut p n rest A A') : Counted b₀ A' := by
  obtain ⟨k, d, hf⟩ := hc.frame
  obtain ⟨hinUse, hall⟩ := hc.sums hb
  exact h.congr hf.blocks hf.owns (by rw [hf.env]) (by rw [hf.env]) hinUse hall

/-- No buffer in use is larger than it was. -/
theorem FreeStep.inUse_le {addr : Nat} {ok : Bool} (hb : Base law vmm 0 A)
    (hf : FreeStep addr A ok A') :
    A'.bufs.sum (BufData.sizeWhere (inUseFrom 0)) ≤
      A.bufs.sum (BufData.sizeWhere (inUseFrom 0)) := by
  refine Heap.sum_le_of_weight fun q => ?_
  cases he : A'.bufs.get q with
  | none => exact Nat.zero_le _
  | some e =>
      rw [Heap.weight_some]
      by_cases hst : e.status.isFree
      · unfold BufData.sizeWhere
        rw [inUseFrom_of_free hst, if_neg Bool.false_ne_true]
        exact Nat.zero_le _
      · obtain ⟨e₀, he₀, hst₀, heq⟩ := (hf.frame hb).back q e he hst
        rw [he₀, Heap.weight_some]
        unfold BufData.sizeWhere
        rw [inUseFrom_of_not_free hst (Nat.zero_le _), inUseFrom_of_not_free hst₀ (Nat.zero_le _),
          heq]

/-- What a part free keeps: the counters stay right, no event comes to be, and there is not more
memory in use than there was. -/
structure Shrinks (law : DeviceLaw dev) (vmm : Bool) (A A' : Arena δ) : Prop where
  base : Base law vmm 0 A'
  counted : Counted 0 A'
  mapped : Mapped A'
  pairs : A'.pairs = A.pairs
  peak : A'.env.memStat.peakSize = A.env.memStat.peakSize
  inUse : A'.bufs.sum (BufData.sizeWhere (inUseFrom 0)) ≤
    A.bufs.sum (BufData.sizeWhere (inUseFrom 0))

theorem Shrinks.refl (hb : Base law vmm 0 A) (hc : Counted 0 A) (hm : Mapped A) :
    Shrinks law vmm A A :=
  ⟨hb, hc, hm, rfl, rfl, Nat.le_refl _⟩

theorem Shrinks.free {A₀ : Arena δ} {addr : Nat} {ok : Bool} (h : Shrinks law vmm A₀ A)
    (hf : FreeStep addr A ok A') : Shrinks law vmm A₀ A' where
  base := h.base.free hf
  counted := h.counted.free h.base hf
  mapped := h.mapped.free h.base hf
  pairs := (hf.frame h.base).pairs.trans h.pairs
  peak := by
    refine Eq.trans ?_ h.peak
    cases hf with
    | absent _ => rfl
    | release hr =>
        cases hr
        rfl
    | retain hr =>
        cases hr
        rfl
  inUse := (hf.inUse_le h.base).trans h.inUse

theorem Shrinks.cut {A₀ : Arena δ} {p n : Nat} {rest : BufData} (h : Shrinks law vmm A₀ A)
    (h0 : 0 < n) (hrest : 0 < rest.size) (hc : Cut p n rest A A') : Shrinks law vmm A₀ A' := by
  obtain ⟨k, d, hf⟩ := hc.frame
  refine ⟨h.base.cut hc, h.counted.cut h.base hc, h.mapped.cut h0 hrest hc, ?_, ?_, ?_⟩
  · exact hf.pairs.trans h.pairs
  · rw [hf.env]
    exact h.peak
  · rw [(hc.sums h.base).1]
    exact h.inUse

theorem Shrinks.cuts {A₀ : Arena δ} (h : Shrinks law vmm A₀ A)
    (hc : ReflTransGen CutStep A A') : Shrinks law vmm A₀ A' := by
  induction hc with
  | refl => exact h
  | tail _ hstep ih =>
      obtain ⟨p, n, rest, h0, hrest, hcut⟩ := hstep
      exact ih.cut h0 hrest hcut

theorem Shrinks.freeAll {A₀ : Arena δ} {es : List (Nat × (Nat × AllocatorKey))}
    (h : Shrinks law vmm A₀ A) (hf : Pool.FreeAll es A A') : Shrinks law vmm A₀ A' := by
  induction hf with
  | nil => exact h
  | cons hone _ ih =>
      obtain ⟨ok, hone⟩ := hone
      exact ih (h.free hone)

end Arena

namespace Pool

variable {law : DeviceLaw dev} {s s' : Pool δ} {m : Nat}

/-- The sum of the sizes of the buffers that the address map holds. -/
def mappedSize (s : Pool δ) : Nat :=
  (s.addrMemBufAllocators.entries.map fun e => Heap.weight MemBuf.size (s.bufs.get e.2.1)).sum

theorem mappedSize_eq (s : Pool δ) : mappedSize s =
    (s.arena.live.entries.map fun e => Heap.weight BufData.size (s.arena.bufs.get e.2.1)).sum := by
  unfold mappedSize
  congr 1
  refine List.map_congr_left fun e _ => ?_
  show _ = Heap.weight BufData.size ((s.bufs.map MemBuf.data).get e.2.1)
  rw [Heap.get_map]
  cases s.bufs.get e.2.1 <;> rfl

/-- The counters are right, and `m` is the largest value that `used_size_` has had. -/
structure UsedInv (law : DeviceLaw dev) (m : Nat) (s : Pool δ) : Prop where
  count : CountInv law 0 s
  mapped : Arena.Mapped s.arena
  peak : s.memStat.peakSize = m
  used : s.memStat.usedSize ≤ m

theorem UsedInv.usedSize_eq (h : UsedInv law m s) : s.memStat.usedSize = mappedSize s := by
  rw [h.count.counters.1, mappedSize_eq]
  exact (h.mapped.sum_eq h.count.inv.base).symm

theorem UsedInv.usedSize_lt (h : UsedInv law m s) : s.memStat.usedSize < sizeBound := by
  obtain ⟨-, halloc, hle⟩ := h.count.counters
  have hlt := h.count.blockTotal_lt
  omega

theorem UsedInv.init (law : DeviceLaw dev) (enableVmm enableTiny : Bool) (d : δ) :
    UsedInv law 0 (Pool.init enableVmm enableTiny d) := by
  have hplain := PlainInv.init law enableVmm enableTiny d
  refine ⟨⟨hplain.inv, hplain.spread, hplain.inSpace, hplain.noEvents, rfl, ?_, ?_⟩, ⟨nofun, nofun⟩,
    rfl, Nat.le_refl _⟩
  · rw [hplain.inv.heldSize_eq]
    cases enableTiny <;> rfl
  · rw [hplain.inv.heldSize_eq]
    cases enableTiny <;> rfl

theorem UsedInv.quiet (hdis : law.Disjoint) (hbd : dev.Bounded) (h : UsedInv law m s) {c : Call}
    (hc : noEventCall c) (hs : Step dev s c s')
    (hpath : ReflTransGen (Arena.Background dev s.enableVmm) s.arena s'.arena) :
    UsedInv law (max m s'.memStat.usedSize) s' := by
  have hcalm := Arena.Calm.of_path hpath
  have hused : s'.memStat.usedSize = s.memStat.usedSize := hcalm.usedSize
  rw [hused, Nat.max_eq_left h.used]
  refine ⟨h.count.step hdis hbd hc hs, h.mapped.calm hcalm, hcalm.peakSize.trans h.peak, ?_⟩
  rw [hused]
  exact h.used

theorem UsedInv.alloc {size streamId addr : Nat} {fromPersistentMem : Bool} (hdis : law.Disjoint)
    (hbd : dev.Bounded) (h : UsedInv law m s) (hsize : size + kDynamicMemAlignSize ≤ sizeBound)
    (hres : allocTensorMem dev size fromPersistentMem streamId s = some (addr, s')) :
    UsedInv law (max m s'.memStat.usedSize) s' := by
  have hd := allocTensorMem_spec h.count.inv (.inr h.count.noEvents) hres
  have hs : Step dev s (.alloc size fromPersistentMem streamId addr) s' := hres
  rcases hd.step.noEvents h.count.noEvents with ⟨-, hpath⟩ | ⟨p, k, A, d, hpath, hh, -, -⟩
  · exact h.quiet hdis hbd (c := .alloc size fromPersistentMem streamId addr) trivial hs hpath
  · obtain ⟨d₀, hf⟩ := hh.frame
    have hcount := h.count.step hdis hbd (c := .alloc size fromPersistentMem streamId addr) trivial
      hs
    have hcalm := Arena.Calm.of_path hpath
    have hmapped := h.mapped.calm hcalm
    have halign := (alignMemorySize_ge hsize).2
    have hfresh := hand_fresh hcount.inv hcount.spread (hd.vmm ▸ h.count.inv.base.path hpath)
      (fun q e hq hst => hmapped.pos_hand hf halign hq hst) hf
    have hpeak : s'.memStat.peakSize = _ := hh.peak
    rw [hcalm.peakSize] at hpeak
    refine ⟨hcount, hmapped.hand hf halign hfresh, ?_, Nat.le_max_right _ _⟩
    rw [← h.peak]
    exact hpeak

/-- A call that hands out nothing. -/
theorem UsedInv.shrinks (h : UsedInv law m s) (hs' : Placed law s')
    (hsh : Arena.Shrinks law s'.enableVmm s.arena s'.arena) :
    UsedInv law (max m s'.memStat.usedSize) s' := by
  have hcount : CountInv law 0 s' := by
    refine ⟨hs'.inv, hs'.spread, hs'.inSpace, ?_, hsh.counted⟩
    rw [hsh.pairs]
    exact h.count.noEvents
  have hused : s'.memStat.usedSize ≤ m := by
    rw [hcount.counters.1]
    refine Nat.le_trans hsh.inUse ?_
    rw [← h.count.counters.1]
    exact h.used
  rw [Nat.max_eq_left hused]
  exact ⟨hcount, hsh.mapped, hsh.peak.trans h.peak, hused⟩

theorem UsedInv.free (h : UsedInv law m s) (addr : Nat) :
    UsedInv law (max m (freeTensorMem addr s).memStat.usedSize) (freeTensorMem addr s) := by
  have hd := freeTensorMem_spec h.count.inv addr
  obtain ⟨ok, hstep⟩ := hd.step
  have hf := hstep.frame h.count.inv.base
  refine h.shrinks ⟨hd.inv, h.count.spread.congr hf.blocks hf.owns,
    h.count.inSpace.congr hf.blocks hf.owns⟩ ?_
  rw [hd.vmm]
  exact (Arena.Shrinks.refl h.count.inv.base h.count.counted h.mapped).free hstep

theorem UsedInv.freePart {freeAddrs keepAddrs keepAddrSizes : List Nat} (h : UsedInv law m s)
    (hfit : KeepsFit s freeAddrs (keepAddrs.zip keepAddrSizes)) :
    UsedInv law (max m (freePartTensorMems freeAddrs keepAddrs keepAddrSizes s).memStat.usedSize)
      (freePartTensorMems freeAddrs keepAddrs keepAddrSizes s) := by
  have hplaced : Placed law s := ⟨h.count.inv, h.count.spread, h.count.inSpace⟩
  obtain ⟨st, hpart, -⟩ := hplaced.partFreed hfit
  refine h.shrinks hpart.placed ?_
  rw [hpart.vmm]
  exact ((Arena.Shrinks.refl h.count.inv.base h.count.counted h.mapped).cuts
    hpart.carving.cuts.arena).freeAll hpart.freed

/-! ## Runs -/

/-- A `Call` without events, whose ranges to keep fit. -/
def quietCall (s : Pool δ) : Call → Prop
  | .freePart freeAddrs keepAddrs keepAddrSizes =>
      KeepsFit s freeAddrs (keepAddrs.zip keepAddrSizes)
  | c => noEventCall c

/-- No request is so large that the alignment wraps around. -/
def alignsUp : Call → Prop
  | .alloc size _ _ _ => size + kDynamicMemAlignSize ≤ sizeBound
  | _ => True

/-- One call, and the largest value that `used_size_` has had so far. It goes up once in a call,
when a buffer is handed out. -/
def CountedStep (dev : Device δ) (x : Pool δ × Nat) (c : Call) (x' : Pool δ × Nat) : Prop :=
  Step dev x.1 c x'.1 ∧ x'.2 = max x.2 x'.1.memStat.usedSize ∧ quietCall x.1 c

theorem countedStep_of_execOne {c : Call} (h : execOne dev s c = some s') (hc : quietCall s c) :
    CountedStep dev (s, m) c (s', max m s'.memStat.usedSize) :=
  ⟨step_of_execOne h, rfl, hc⟩

theorem UsedInv.step (hdis : law.Disjoint) (hbd : dev.Bounded) (h : UsedInv law m s) {c : Call}
    (hc : quietCall s c) (hal : alignsUp c) (hs : Step dev s c s') :
    UsedInv law (max m s'.memStat.usedSize) s' := by
  cases c with
  | alloc size b n addr => exact h.alloc hdis hbd hal hs
  | free addr =>
      cases hs
      exact h.free addr
  | freePart freeAddrs keepAddrs keepAddrSizes =>
      cases hs
      exact h.freePart hc
  | defrag =>
      exact h.quiet hdis hbd (c := .defrag) trivial hs (defragMemory_spec h.count.inv hs).path
  | record _ _ _ _ => exact hc.elim
  | wait _ _ _ => exact hc.elim
  | waitMem _ _ _ => exact hc.elim
  | syncAllEvents => exact hc.elim

/-- In every run of quiet calls (no events, and ranges to keep that fit) whose requests do not wrap
around, `used_size_` is the sum of the sizes in the address map, `alloc_size_` that of the sizes of
the blocks, `IdleSize` is their difference, and `peak_size_` is the largest value `used_size_` has
had. -/
theorem counters_exact (law : DeviceLaw dev) (hdis : law.Disjoint) (hbd : dev.Bounded)
    {enableVmm enableTiny : Bool} {d : δ} {calls : List Call}
    (hrun : Run (fun x c x' => CountedStep dev x c x' ∧ alignsUp c)
      (Pool.init enableVmm enableTiny d, 0) calls (s, m)) :
    s.memStat.usedSize = mappedSize s ∧ s.memStat.allocSize = blockTotal s ∧
      s.memStat.usedSize ≤ s.memStat.allocSize ∧
      s.memStat.idleSize = s.memStat.allocSize - s.memStat.usedSize ∧ s.memStat.peakSize = m := by
  have hinv : UsedInv law m s := hrun.state_inv (I := fun x => UsedInv law x.2 x.1)
    (UsedInv.init law enableVmm enableTiny d) fun x c x' hI hs => by
      rw [hs.1.2.1]
      exact hI.step hdis hbd hs.1.2.2 hs.2 hs.1.1
  obtain ⟨-, halloc, hle⟩ := hinv.count.counters
  have hlt := hinv.count.blockTotal_lt
  exact ⟨hinv.usedSize_eq, halloc, hle, subSize_eq (by omega) hle, hinv.peak⟩

/-- Two allocations. Of the first one 200 bytes are kept, and then the second one is freed. -/
theorem counters_exact_part :
    ∃ calls s m, Run (fun x c x' => CountedStep (linearDevice false false) x c x' ∧ alignsUp c)
        (Pool.init false false (LinearState.init 0), 0) calls (s, m) ∧ calls.length = 4 ∧
      s.memStat.usedSize = mappedSize s ∧ s.memStat.allocSize = blockTotal s ∧
      s.memStat.usedSize ≤ s.memStat.allocSize ∧
      s.memStat.idleSize = s.memStat.allocSize - s.memStat.usedSize ∧ s.memStat.peakSize = m := by
  have hexec : ((execOne (linearDevice false false) (Pool.init false false (LinearState.init 0))
      (.alloc 1000 false 0 512)).bind fun s =>
        (execOne (linearDevice false false) s (.alloc 600 false 0 1536)).map fun s =>
          s.arena.sizeAt 512) = some (some 1024) := by
    decide +kernel
  obtain ⟨s₁, h₁, hrest⟩ := Option.bind_eq_some_iff.mp hexec
  obtain ⟨s₂, h₂, hsize⟩ := Option.map_eq_some_iff.mp hrest
  have hfit : quietCall s₂ (.freePart [512] [612] [200]) := by
    have hkeep : ∀ x n, (x, n) ∈ [(612, 200)] → x = 612 ∧ n = 200 := by simp
    refine ⟨fun x n hx => ?_, fun x n y l hx hy hne => ?_, fun x n hx => ?_⟩
    · obtain ⟨-, rfl⟩ := hkeep x n hx
      decide
    · obtain ⟨rfl, rfl⟩ := hkeep x n hx
      obtain ⟨rfl, rfl⟩ := hkeep y l hy
      exact absurd rfl hne
    · obtain ⟨rfl, rfl⟩ := hkeep x n hx
      exact ⟨512, by decide, 1024, hsize, by decide, by decide⟩
  have hrun₁ : Run (fun x c x' => CountedStep (linearDevice false false) x c x' ∧ alignsUp c)
      (Pool.init false false (LinearState.init 0), 0) [] _ := .nil
  have hrun₂ := hrun₁.snoc
    ⟨countedStep_of_execOne h₁ trivial, (by decide : 1000 + 512 ≤ 2 ^ 64)⟩
  have hrun₃ := hrun₂.snoc
    ⟨countedStep_of_execOne h₂ trivial, (by decide : 600 + 512 ≤ 2 ^ 64)⟩
  have hrun₄ := hrun₃.snoc
    ⟨countedStep_of_execOne (c := .freePart [512] [612] [200]) rfl hfit, trivial⟩
  have hrun := hrun₄.snoc ⟨countedStep_of_execOne (c := .free 1536) rfl trivial, trivial⟩
  exact ⟨_, _, _, hrun, rfl, counters_exact (linearLaw false false)
    (linearLaw_disjoint false false) (linearDevice_bounded false false) hrun⟩

/-- A request whose aligned size is zero: the next one gets the same address, and its buffer is
counted but not in the map. -/
theorem empty_buffer_hides_next :
    ∃ s m, Run (CountedStep (linearDevice false false))
        (Pool.init false false (LinearState.init 0), 0)
        [.alloc (2 ^ 64 - 1) false 0 512, .alloc 512 false 0 512] (s, m) ∧
      s.memStat.usedSize = 512 ∧ mappedSize s = 0 := by
  have hexec : ((execOne (linearDevice false false) (Pool.init false false (LinearState.init 0))
      (.alloc (2 ^ 64 - 1) false 0 512)).bind fun s =>
        (execOne (linearDevice false false) s (.alloc 512 false 0 512)).map fun s =>
          (s.memStat.usedSize, mappedSize s)) = some (512, 0) := by
    decide +kernel
  obtain ⟨s₁, h₁, hrest⟩ := Option.bind_eq_some_iff.mp hexec
  obtain ⟨s₂, h₂, hval⟩ := Option.map_eq_some_iff.mp hrest
  simp only [Prod.mk.injEq] at hval
  have hrun := (Run.nil.snoc (countedStep_of_execOne (m := 0) h₁ trivial)).snoc
    (countedStep_of_execOne h₂ trivial)
  exact ⟨s₂, _, hrun, hval⟩

end Pool

end Ccbase.Memory
