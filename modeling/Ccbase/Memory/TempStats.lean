import Ccbase.Memory.UsedSize

/-!
# The statistics since the last reset

`ResetMaxMemAllocated` and `ResetMaxMemReserved` remember a value of a counter, and the statistics
after them are relative to it. Over every run that mixes the resets with the calls of the pool,
`MaxMemAllocatedStatistics` is the largest amount of memory in use since its reset, less the amount
there was then; `MaxMemReservedStatistics` is what the blocks have grown by since its own.
-/

namespace Ccbase.Memory

open Ccbase.Lib Relation

variable {δ : Type} {dev : Device δ}

/-- The counters that only the resets and `UpdatePeakSize` write. -/
def MemStat.temps (st : MemStat) : Nat × Nat × Nat :=
  (st.tempUsedSize, st.tempPeakSize, st.tempAllocSize)

theorem temps_grow (eager : Bool) (size : Nat) (st : MemStat) :
    (Pool.grow eager size st).temps = st.temps := by
  unfold Pool.grow
  split <;> rfl

namespace Arena

variable {law : DeviceLaw dev} {vmm : Bool} {b₀ : Nat} {A A' : Arena δ}

theorem Background.temps (h : Background dev vmm A A') :
    A'.env.memStat.temps = A.env.memStat.temps := by
  cases h with
  | churn hs hc =>
      cases hc with
      | split hp hB hfree hn => rfl
      | mapFail hp hB hst hn hcb hk =>
          obtain ⟨d', -, rfl⟩ := Pool.memMapper_eq dev hcb
          rfl
      | expand hcb =>
          rcases Pool.memBlockExpander_cases dev hcb with ⟨hr, -⟩ | ⟨n, sz, ad, d', -, hr⟩
          · cases hr
          · rcases hr with ⟨-, hr, -⟩ | ⟨-, sid, -, rfl⟩
            · cases hr
            · exact temps_grow _ sz A.env.memStat
      | expandFail hcb =>
          rcases Pool.memBlockExpander_cases dev hcb with ⟨-, rfl⟩ | ⟨n, sz, ad, d', -, hr⟩
          · rfl
          · rcases hr with ⟨-, -, rfl⟩ | ⟨-, sid, hr, -⟩
            · exact temps_grow _ sz A.env.memStat
            · cases hr
  | sweep hsw =>
      have hstat := congrArg MemStat.temps hsw.frame.memStat
      exact hstat
  | sync _ => rfl

theorem temps_of_path (h : ReflTransGen (Background dev vmm) A A') :
    A'.env.memStat.temps = A.env.memStat.temps := by
  induction h with
  | refl => rfl
  | tail _ hstep ih => exact hstep.temps.trans ih

/-- Blocks are added, and none is given back. -/
theorem Background.heldSize_le (hb : Base law vmm b₀ A) (h : Background dev vmm A A') :
    A.heldSize ≤ A'.heldSize := by
  rcases h.blocks_cases with ⟨hblocks, howns⟩ | ⟨k, n, size, addr, d', -, -, hblocks, howns⟩
  · exact Nat.le_of_eq (heldSize_congr hblocks howns).symm
  · rw [heldSize_expand hb hblocks howns]
    exact Nat.le_add_right _ _

theorem heldSize_le_of_path (hb : Base law vmm b₀ A)
    (h : ReflTransGen (Background dev vmm) A A') : A.heldSize ≤ A'.heldSize := by
  induction h with
  | refl => exact Nat.le_refl _
  | tail hpath hstep ih => exact ih.trans (hstep.heldSize_le (hb.path hpath))

/-- What a hand-out does to the counters of the resets. -/
theorem Hand.temps {size p : Nat} {k : AllocatorKey} (h : Hand dev size p k A A') :
    A'.env.memStat.tempUsedSize = A.env.memStat.tempUsedSize ∧
      A'.env.memStat.tempAllocSize = A.env.memStat.tempAllocSize ∧
      A'.env.memStat.tempPeakSize =
        if A.env.memStat.tempUsedSize < A'.env.memStat.usedSize
        then max A.env.memStat.tempPeakSize
          (subSize A'.env.memStat.usedSize A.env.memStat.tempUsedSize)
        else A.env.memStat.tempPeakSize := by
  cases h with
  | @mk s m d ht hd =>
      have htake : m.env.memStat.temps = A.env.memStat.temps := by
        cases ht with
        | idle _ _ _ _ => rfl
        | eager _ _ _ _ hcb =>
            obtain ⟨d', -, rfl⟩ := Pool.memMapper_eq dev hcb
            rfl
      simp only [MemStat.temps, Prod.mk.injEq] at htake
      obtain ⟨hused, hpeak, halloc⟩ := htake
      have henter : ∀ (B : Arena δ) (a : Nat) (v : Nat × AllocatorKey),
          (B.enter a v).env = B.env := by
        intro B a v
        unfold enter
        split <;> rfl
      rw [henter, ← hused, ← hpeak, ← halloc]
      exact ⟨rfl, rfl, rfl⟩

theorem FreeStep.temps {addr : Nat} {ok : Bool} (hf : FreeStep addr A ok A') :
    A'.env.memStat.temps = A.env.memStat.temps := by
  cases hf with
  | absent _ => rfl
  | release hr =>
      cases hr
      rfl
  | retain hr =>
      cases hr
      rfl

/-- The blocks and the counters of the resets stay as they are. -/
structure Rests (A A' : Arena δ) : Prop where
  temps : A'.env.memStat.temps = A.env.memStat.temps
  blocks : A'.blocks = A.blocks
  owns : A'.owns = A.owns

theorem Rests.refl (A : Arena δ) : Rests A A := ⟨rfl, rfl, rfl⟩

theorem Rests.trans {A'' : Arena δ} (h : Rests A A') (h' : Rests A' A'') : Rests A A'' :=
  ⟨h'.temps.trans h.temps, h'.blocks.trans h.blocks, h'.owns.trans h.owns⟩

theorem FreeStep.rests {addr : Nat} {ok : Bool} (hb : Base law vmm b₀ A)
    (hf : FreeStep addr A ok A') : Rests A A' :=
  ⟨hf.temps, (hf.frame hb).blocks, (hf.frame hb).owns⟩

theorem Rests.cuts (h : ReflTransGen CutStep A A') : Rests A A' := by
  induction h with
  | refl => exact .refl A
  | tail _ hstep ih =>
      obtain ⟨p, n, rest, -, -, hcut⟩ := hstep
      obtain ⟨k, d, hf⟩ := hcut.frame
      exact ih.trans ⟨by rw [hf.env], hf.blocks, hf.owns⟩

theorem Rests.freeAll {es : List (Nat × (Nat × AllocatorKey))} (hb : Base law vmm 0 A)
    (h : Pool.FreeAll es A A') : Rests A A' := by
  induction h with
  | nil => exact .refl _
  | cons hone _ ih =>
      obtain ⟨ok, hone⟩ := hone
      exact (hone.rests hb).trans (ih (hb.free hone))

end Arena

namespace Pool

variable {law : DeviceLaw dev} {s s' : Pool δ} {m : Nat}

def maxMemAllocatedStatistics (s : Pool δ) : Nat := s.memStat.tempPeakSize

def maxMemReservedStatistics (s : Pool δ) : Nat :=
  subSize s.memStat.allocSize s.memStat.tempAllocSize

/-- A call of the pool, or one of the two resets. -/
inductive StatCall where
  | call (c : Call)
  | resetMaxMemReserved
  | resetMaxMemAllocated

/-- What a client has seen of the memory: how much was in use at the last
`ResetMaxMemAllocated` and the most that has been since, how large the blocks were at the last
`ResetMaxMemReserved`, and the most that has ever been in use. -/
structure Seen where
  used : Nat := 0
  top : Nat := 0
  reserved : Nat := 0
  peak : Nat := 0

def StatStep (dev : Device δ) (x : Pool δ × Seen) : StatCall → Pool δ × Seen → Prop
  | .call c, x' => Step dev x.1 c x'.1 ∧ quietCall x.1 c ∧ alignsUp c ∧
      x'.2 = { x.2 with
        top := max x.2.top (mappedSize x'.1), peak := max x.2.peak (mappedSize x'.1) }
  | .resetMaxMemReserved, x' =>
      x' = (resetMaxMemReserved x.1, { x.2 with reserved := blockTotal x.1 })
  | .resetMaxMemAllocated, x' =>
      x' = (resetMaxMemAllocated x.1,
        { x.2 with used := mappedSize x.1, top := mappedSize x.1 })

theorem statStep_of_execOne {c : Call} (h : execOne dev s c = some s') (hc : quietCall s c)
    (hal : alignsUp c) (x : Seen) :
    StatStep dev (s, x) (.call c) (s', { x with
      top := max x.top (mappedSize s'), peak := max x.peak (mappedSize s') }) :=
  ⟨step_of_execOne h, hc, hal, rfl⟩

/-- The counters of the resets are those that the client has seen. -/
structure TempInv (law : DeviceLaw dev) (x : Seen) (s : Pool δ) : Prop where
  used : UsedInv law x.peak s
  temps : s.memStat.temps = (x.used, x.top - x.used, x.reserved)
  le_top : x.used ≤ x.top
  below : s.memStat.usedSize ≤ x.top
  grown : x.reserved ≤ blockTotal s

/-- A call during which nothing is handed out. -/
theorem TempInv.rest {x : Seen} {peak : Nat} (h : TempInv law x s) (hused : UsedInv law peak s')
    (htemps : s'.memStat.temps = s.memStat.temps) (hle : s'.memStat.usedSize ≤ s.memStat.usedSize)
    (hgrown : blockTotal s ≤ blockTotal s') :
    TempInv law { x with top := max x.top (mappedSize s'), peak := peak } s' := by
  have htop : max x.top (mappedSize s') = x.top := by
    rw [← hused.usedSize_eq]
    exact Nat.max_eq_left (hle.trans h.below)
  rw [htop]
  exact ⟨hused, htemps.trans h.temps, h.le_top, hle.trans h.below, h.grown.trans hgrown⟩

theorem TempInv.alloc {x : Seen} {size streamId addr : Nat} {fromPersistentMem : Bool}
    (hdis : law.Disjoint) (hbd : dev.Bounded) (h : TempInv law x s)
    (hsize : size + kDynamicMemAlignSize ≤ sizeBound)
    (hres : allocTensorMem dev size fromPersistentMem streamId s = some (addr, s')) :
    TempInv law { x with
      top := max x.top (mappedSize s'), peak := max x.peak (mappedSize s') } s' := by
  have hbase := h.used.count.inv.base
  have hused := h.used.alloc hdis hbd hsize hres
  rw [hused.usedSize_eq] at hused
  have hd := allocTensorMem_spec h.used.count.inv (.inr h.used.count.noEvents) hres
  rcases hd.step.noEvents h.used.count.noEvents with ⟨-, hpath⟩ | ⟨p, k, A, d, hpath, hh, -, -⟩
  · have hgrown := Arena.heldSize_le_of_path hbase hpath
    rw [h.used.count.inv.heldSize_eq, hused.count.inv.heldSize_eq] at hgrown
    exact h.rest hused (Arena.temps_of_path hpath)
      (Nat.le_of_eq (Arena.Calm.of_path hpath).usedSize) hgrown
  · have hgrown := Arena.heldSize_le_of_path hbase hpath
    obtain ⟨hblocks, howns⟩ := hh.blocks
    rw [← Arena.heldSize_congr hblocks howns, h.used.count.inv.heldSize_eq,
      hused.count.inv.heldSize_eq] at hgrown
    have htemps := Arena.temps_of_path hpath
    have hx := h.temps
    rw [show s.memStat.temps = s.arena.env.memStat.temps from rfl, ← htemps] at hx
    simp only [MemStat.temps, Prod.mk.injEq] at hx
    obtain ⟨hxused, hxpeak, hxalloc⟩ := hx
    obtain ⟨h1, h2, h3⟩ := hh.temps
    have hval : s'.arena.env.memStat.usedSize = mappedSize s' := hused.usedSize_eq
    have hlt := hused.usedSize_lt
    have hle := h.le_top
    rw [hused.usedSize_eq] at hlt
    rw [hxused, hxpeak, hval] at h3
    have htop : s'.memStat.tempPeakSize = max x.top (mappedSize s') - x.used := by
      refine h3.trans ?_
      by_cases hgt : x.used < mappedSize s'
      · rw [if_pos hgt, subSize_eq hlt (Nat.le_of_lt hgt)]
        omega
      · rw [if_neg hgt]
        omega
    refine ⟨hused, ?_, hle.trans (Nat.le_max_left _ _), ?_, h.grown.trans hgrown⟩
    · show (s'.memStat.tempUsedSize, s'.memStat.tempPeakSize, s'.memStat.tempAllocSize) = _
      rw [htop, show s'.memStat.tempUsedSize = x.used from h1.trans hxused,
        show s'.memStat.tempAllocSize = x.reserved from h2.trans hxalloc]
    · rw [hused.usedSize_eq]
      exact Nat.le_max_right _ _

/-- A call that gives memory back. -/
theorem TempInv.rests {x : Seen} (h : TempInv law x s)
    (hused : UsedInv law (max x.peak s'.memStat.usedSize) s')
    (hle : s'.memStat.usedSize ≤ s.memStat.usedSize) (hrests : Arena.Rests s.arena s'.arena) :
    TempInv law { x with
      top := max x.top (mappedSize s'), peak := max x.peak (mappedSize s') } s' := by
  rw [hused.usedSize_eq] at hused
  refine h.rest hused hrests.temps hle (Nat.le_of_eq ?_)
  rw [← h.used.count.inv.heldSize_eq, ← hused.count.inv.heldSize_eq]
  exact (Arena.heldSize_congr hrests.blocks hrests.owns).symm

theorem TempInv.call {x : Seen} {c : Call} (hdis : law.Disjoint) (hbd : dev.Bounded)
    (h : TempInv law x s) (hc : quietCall s c) (hal : alignsUp c) (hs : Step dev s c s') :
    TempInv law { x with
      top := max x.top (mappedSize s'), peak := max x.peak (mappedSize s') } s' := by
  have hused := h.used.step hdis hbd hc hal hs
  have hinv := h.used.count.inv
  have hrefl := Arena.Shrinks.refl hinv.base h.used.count.counted h.used.mapped
  have hle : ∀ {t : Pool δ}, UsedInv law (max x.peak t.memStat.usedSize) t →
      Arena.Shrinks law s.enableVmm s.arena t.arena →
      t.memStat.usedSize ≤ s.memStat.usedSize := by
    intro t ht hsh
    rw [ht.count.counters.1, h.used.count.counters.1]
    exact hsh.inUse
  cases c with
  | alloc size b n addr => exact h.alloc hdis hbd hal hs
  | free addr =>
      cases hs
      have hd := freeTensorMem_spec hinv addr
      obtain ⟨ok, hstep⟩ := hd.step
      exact h.rests hused (hle hused (hrefl.free hstep)) (hstep.rests hinv.base)
  | freePart freeAddrs keepAddrs keepAddrSizes =>
      cases hs
      have hplaced : Placed law s := ⟨hinv, h.used.count.spread, h.used.count.inSpace⟩
      obtain ⟨st, hpart, -⟩ := hplaced.partFreed hc
      have hcuts := hrefl.cuts hpart.carving.cuts.arena
      refine h.rests hused (hle hused (hcuts.freeAll hpart.freed)) ?_
      exact (Arena.Rests.cuts hpart.carving.cuts.arena).trans
        (Arena.Rests.freeAll hcuts.base hpart.freed)
  | defrag =>
      have hpath := (defragMemory_spec hinv hs).path
      rw [hused.usedSize_eq] at hused
      have hgrown := Arena.heldSize_le_of_path hinv.base hpath
      rw [hinv.heldSize_eq, hused.count.inv.heldSize_eq] at hgrown
      exact h.rest hused (Arena.temps_of_path hpath)
        (Nat.le_of_eq (Arena.Calm.of_path hpath).usedSize) hgrown
  | record _ _ _ _ => exact hc.elim
  | wait _ _ _ => exact hc.elim
  | waitMem _ _ _ => exact hc.elim
  | syncAllEvents => exact hc.elim

/-- A reset does not touch the counters of `UsedInv`. -/
theorem UsedInv.memStat (h : UsedInv law m s) {st : MemStat}
    (hused : st.usedSize = s.memStat.usedSize) (halloc : st.allocSize = s.memStat.allocSize)
    (hpeak : st.peakSize = s.memStat.peakSize) : UsedInv law m { s with memStat := st } := by
  refine ⟨⟨h.count.inv.memStat st, h.count.spread, h.count.inSpace, h.count.noEvents, ?_⟩,
    ⟨h.mapped.pos, h.mapped.mapped⟩, hpeak.trans h.peak, ?_⟩
  · exact h.count.counted.congr rfl rfl hused halloc rfl rfl
  · show st.usedSize ≤ m
    rw [hused]
    exact h.used

theorem TempInv.step {x x' : Seen} {c : StatCall} (hdis : law.Disjoint) (hbd : dev.Bounded)
    (h : TempInv law x s) (hs : StatStep dev (s, x) c (s', x')) : TempInv law x' s' := by
  have htemps := h.temps
  simp only [MemStat.temps, Prod.mk.injEq] at htemps
  obtain ⟨hxused, hxpeak, hxalloc⟩ := htemps
  cases c with
  | call c =>
      obtain ⟨hstep, hquiet, hal, hx'⟩ := hs
      have hx' : x' = _ := hx'
      rw [hx']
      exact h.call hdis hbd hquiet hal hstep
  | resetMaxMemReserved =>
      cases hs
      refine ⟨h.used.memStat rfl rfl rfl, ?_, h.le_top, h.below, Nat.le_refl _⟩
      show (s.memStat.tempUsedSize, s.memStat.tempPeakSize, s.memStat.allocSize) = _
      rw [hxused, hxpeak, h.used.count.counters.2.1]
  | resetMaxMemAllocated =>
      cases hs
      refine ⟨h.used.memStat rfl rfl rfl, ?_, Nat.le_refl _, ?_, h.grown⟩
      · show (s.memStat.usedSize, 0, s.memStat.tempAllocSize) = _
        rw [h.used.usedSize_eq, hxalloc, Nat.sub_self]
      · exact Nat.le_of_eq h.used.usedSize_eq

theorem TempInv.init (law : DeviceLaw dev) (enableVmm enableTiny : Bool) (d : δ) :
    TempInv law {} (Pool.init enableVmm enableTiny d) :=
  ⟨UsedInv.init law enableVmm enableTiny d, rfl, Nat.le_refl _, Nat.le_refl _, Nat.zero_le _⟩

/-- In every run of quiet calls that resets the statistics at any times,
`MaxMemAllocatedStatistics` is the largest amount in use since the last `ResetMaxMemAllocated` less
the amount in use then, and `MaxMemReservedStatistics` is the growth of all blocks since the last
`ResetMaxMemReserved`. Neither difference wraps around, and the peak of the whole run stays. -/
theorem temp_statistics_exact (law : DeviceLaw dev) (hdis : law.Disjoint) (hbd : dev.Bounded)
    {enableVmm enableTiny : Bool} {d : δ} {calls : List StatCall} {x : Seen}
    (hrun : Run (StatStep dev) (Pool.init enableVmm enableTiny d, {}) calls (s, x)) :
    maxMemAllocatedStatistics s = x.top - x.used ∧ x.used ≤ x.top ∧
      maxMemReservedStatistics s = blockTotal s - x.reserved ∧ x.reserved ≤ blockTotal s ∧
      s.memStat.peakSize = x.peak := by
  have hinv : TempInv law x s := hrun.state_inv (I := fun y => TempInv law y.2 y.1)
    (TempInv.init law enableVmm enableTiny d) fun y c y' hI hs => hI.step hdis hbd hs
  have htemps := hinv.temps
  simp only [MemStat.temps, Prod.mk.injEq] at htemps
  obtain ⟨-, hpeak, halloc⟩ := htemps
  refine ⟨hpeak, hinv.le_top, ?_, hinv.grown, hinv.used.peak⟩
  have hlt := hinv.used.count.blockTotal_lt
  unfold maxMemReservedStatistics
  rw [halloc, hinv.used.count.counters.2.1]
  exact subSize_eq hlt hinv.grown

/-- An allocation before the reset and one after it; then the first one is freed. -/
theorem temp_statistics_exact_two :
    ∃ calls s x, Run (StatStep (linearDevice false false))
        (Pool.init false false (LinearState.init 0), {}) calls (s, x) ∧ calls.length = 5 ∧
      maxMemAllocatedStatistics s = x.top - x.used ∧ x.used ≤ x.top ∧
      maxMemReservedStatistics s = blockTotal s - x.reserved ∧ x.reserved ≤ blockTotal s ∧
      s.memStat.peakSize = x.peak := by
  have hexec : ((execOne (linearDevice false false) (Pool.init false false (LinearState.init 0))
      (.alloc 1000 false 0 512)).bind fun s =>
        (execOne (linearDevice false false) (resetMaxMemReserved (resetMaxMemAllocated s))
          (.alloc 600 false 0 1536)).map fun s => s.memStat.tempPeakSize) = some 1024 := by
    decide +kernel
  obtain ⟨s₁, h₁, hrest⟩ := Option.bind_eq_some_iff.mp hexec
  obtain ⟨s₂, h₂, -⟩ := Option.map_eq_some_iff.mp hrest
  have hrun₀ : Run (StatStep (linearDevice false false))
      (Pool.init false false (LinearState.init 0), {}) [] _ := .nil
  have hrun₁ := hrun₀.snoc (statStep_of_execOne h₁ trivial (by decide : 1000 + 512 ≤ 2 ^ 64) _)
  have hreset : ∀ x : Seen, StatStep (linearDevice false false) (s₁, x) .resetMaxMemAllocated
      (resetMaxMemAllocated s₁, { x with used := mappedSize s₁, top := mappedSize s₁ }) :=
    fun _ => rfl
  have hreset' : ∀ (s : Pool LinearState) (x : Seen),
      StatStep (linearDevice false false) (s, x) .resetMaxMemReserved
        (resetMaxMemReserved s, { x with reserved := blockTotal s }) := fun _ _ => rfl
  have hrun₂ := (hrun₁.snoc (hreset _)).snoc (hreset' _ _)
  have hrun₃ := hrun₂.snoc (statStep_of_execOne h₂ trivial (by decide : 600 + 512 ≤ 2 ^ 64) _)
  have hrun := hrun₃.snoc (statStep_of_execOne (c := .free 512) rfl trivial trivial _)
  exact ⟨_, _, _, hrun, rfl, temp_statistics_exact (linearLaw false false)
    (linearLaw_disjoint false false) (linearDevice_bounded false false) hrun⟩

end Pool

end Ccbase.Memory
