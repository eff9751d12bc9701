import Ccbase.DynamicMem.Calls

/-!
# Runs of all calls

What holds in every state that a run of calls under their conditions reaches: frees
of what is not in use, and lists of consecutive ranges.
-/

namespace Ccbase.DynamicMem

open Ccbase.Lib

section Runs

variable {recycled : Bool} {commonSize persistSize : Nat} {ls : List PoolCall} {c : Client}

/-! ## Frees of what is not in use -/

theorem bestFit_free_unused
    (h : Run (Client.MeetStep .plain) (Client.startAt recycled commonSize persistSize) ls c) :
    (∀ a, (¬ ∃ b x, UsedIn c.pool b x ∧ x.deviceAddr = a) →
      (c.pool.freeTensorMem a = some c.pool ↔ ¬ IdleAt c.pool a)) ∧
    c.live.Pairwise RangesApart := by
  have hinv := ClientInv.callRun splits_isSplit splits_isSplit h
  exact ⟨fun a hnot => freeTensorMem_unchanged_iff hinv.pool hnot, hinv.rangesApart⟩

/-- A buf that comes back from between others, and then a free of no buf at all. -/
theorem bestFit_free_unused_inside :
    ∃ c, Run (Client.MeetStep .plain) (Client.startAt false 1048576 1048576)
      [.alloc 512 false false 0 ⟨1073741824, 4096, 1048576⟩,
        .alloc 700 true false 0 ⟨1073741824, 0, 0⟩, .free 4100, .free 77, .free 4096] c ∧
      (c.pool.freeTensorMem 4096 = some c.pool ↔ ¬ IdleAt c.pool 4096) ∧
      c.live.Pairwise RangesApart := by
  obtain ⟨c, hrun, hfree⟩ : ∃ c, Run (Client.MeetStep .plain) (Client.startAt false 1048576 1048576)
      [.alloc 512 false false 0 ⟨1073741824, 4096, 1048576⟩,
        .alloc 700 true false 0 ⟨1073741824, 0, 0⟩, .free 4100, .free 77, .free 4096] c ∧
      ¬ ∃ b, ∃ x ∈ allBufs (c.pool.mng b).memBlockList, x.status = .used ∧ x.deviceAddr = 4096 :=
    Run.exists_of_exec (by decide +kernel)
  obtain ⟨hunused, hapart⟩ := bestFit_free_unused hrun
  refine ⟨c, hrun, hunused 4096 ?_, hapart⟩
  rintro ⟨b, x, hx, haddr⟩
  exact hfree ⟨b, x, hx.1, hx.2, haddr⟩

/-- A buf that is freed twice is handed out twice. -/
theorem free_twice_hands_out_twice :
    (∃ c, Run (Client.CallStep .plain) (Client.startAt false 1048576 1048576)
      [.alloc 512 false false 0 ⟨1073741824, 4096, 1048576⟩,
        .alloc 512 false false 0 ⟨1073741824, 0, 0⟩, .free 4096] c ∧
      (∀ b, ∀ x ∈ allBufs (c.pool.mng b).memBlockList, x.deviceAddr = 4096 → x.status ≠ .used) ∧
      (c.pool.freeTensorMem 4096).map (fun p => p.commonMem.mps) ≠ some c.pool.commonMem.mps) ∧
    ∃ c, Run (Client.CallStep .plain) (Client.startAt false 1048576 1048576)
      [.alloc 512 false false 0 ⟨1073741824, 4096, 1048576⟩,
        .alloc 512 false false 0 ⟨1073741824, 0, 0⟩, .free 4096, .free 4096,
        .alloc 512 false false 0 ⟨1073741824, 0, 0⟩,
        .alloc 512 false false 0 ⟨1073741824, 0, 0⟩] c ∧
      c.live = [(4096, 512), (4096, 512), (4608, 512)] ∧ ¬ c.live.Pairwise RangesApart :=
  ⟨Run.exists_of_exec (by decide +kernel), Run.exists_of_exec (by decide +kernel)⟩

/-! ## Consecutive ranges -/

/-- For a sum that an `int` holds, a list of sizes is answered exactly if the buf for
them is not mislaid. -/
theorem bestFit_continuous_iff
    (h : Run (Client.MeetStep .plain) (Client.startAt recycled commonSize persistSize) ls c)
    (hunits : ∀ b, 0 < (c.pool.mng b).unitSize) {sizes : List Nat} (hne : sizes ≠ [])
    (hpos : ∀ s ∈ sizes, 0 < s) (hsum : sizes.sum < 2 ^ 31) (streamId : Nat) {d : DeviceAnswer}
    (hd : Handed d c.pool) :
    (∃ res, c.pool.allocContinuousTensorMem .plain sizes streamId d = some res ∧
      (res.1 = [] ∨ ∃ a, ContinuousRanges sizes c.pool res.2 res.1 a ∧
        ∀ e ∈ c.live, RangesApart e (a, sizes.sum))) ↔
    ¬ Mislaid sizes.sum streamId d c.pool := by
  have hinv := ClientInv.callRun splits_isSplit splits_isSplit h
  constructor
  · rintro ⟨res, hres, -⟩ hmis
    rw [allocContinuousTensorMem_mislaid splits_isSplit splits_isSplit hinv.pool hsum hd
      hmis] at hres
    cases hres
  · intro hsafe
    obtain ⟨hresult, hdefined⟩ := allocContinuousTensorMem_spec (t := .plain) splits_isSplit
      splits_isSplit hinv.pool hne hpos hsum hd hsafe
    obtain ⟨res, hres⟩ := Option.isSome_iff_exists.mp (hdefined hunits)
    refine ⟨res, hres, ?_⟩
    rcases (hresult res hres).good splits_isSplit splits_isSplit hinv.pool hpos (by omega) hd with
      hempty | ⟨a, hranges⟩
    · exact Or.inl hempty
    · refine Or.inr ⟨a, hranges, fun e he => ?_⟩
      obtain ⟨b, y, hy, haddr, hsize⟩ := hinv.used he
      have hapart := hranges.apart b y hy
      simp only [RangesApart]
      omega

theorem bestFit_continuous_iff_three :
    ∃ res, (DynamicMemPoolBestFit.fresh 1048576 1048576).allocContinuousTensorMem .plain
      [100, 200, 300] 5 ⟨1073741824, 4096, 1048576⟩ = some res ∧
      (res.1 = [] ∨ ∃ a, ContinuousRanges [100, 200, 300]
        (DynamicMemPoolBestFit.fresh 1048576 1048576) res.2 res.1 a ∧
        ∀ e ∈ ([] : List (Nat × Nat)), RangesApart e (a, 600)) :=
  (bestFit_continuous_iff
    (Run.nil : Run (Client.MeetStep .plain) (Client.startAt false 1048576 1048576) [] _) (by decide)
    (by decide) (by decide) (by decide) 5 (by decide)).mpr (by decide +kernel)

/-- A sum that no `int` holds, and a buf of the persistent pool behind a common block. -/
theorem continuous_fails :
    (∃ res, (DynamicMemPoolBestFit.fresh 1048576 1048576).allocContinuousTensorMem .plain
      [4294967296, 512] 0 ⟨1073741824, 4096, 1048576⟩ = some res ∧ res.1 ≠ [] ∧
      ¬ ∃ a, ContinuousRanges [4294967296, 512] (DynamicMemPoolBestFit.fresh 1048576 1048576)
        res.2 res.1 a) ∧
    ∃ c, Run (Client.CallStep .plain) (Client.startAt false 1048576 1048576)
      [.alloc 512 false false 0 ⟨1073741824, 4096, 512⟩,
        .alloc 512 true false 0 ⟨1073741824, 2097152, 1048576⟩] c ∧
      c.MayCall (.allocContinuous [512, 512] 0 ⟨0, 0, 0⟩) ∧
      (c.pool.allocContinuousTensorMem .plain [512, 512] 0 ⟨0, 0, 0⟩).isNone := by
  refine ⟨?_, Run.exists_of_exec (by decide +kernel)⟩
  have hcall : ((DynamicMemPoolBestFit.fresh 1048576 1048576).allocContinuousTensorMem .plain
      [4294967296, 512] 0 ⟨1073741824, 4096, 1048576⟩).any (fun res =>
        decide (res.1 = [4096, 4294971392] ∧ ¬ ∃ b, ∃ blk ∈ (res.2.mng b).memBlockList,
          blk.deviceAddrBase ≤ 4096 ∧
            4096 + 4294967808 ≤ blk.deviceAddrBase + blk.memBlockSize)) = true := by
    decide +kernel
  obtain ⟨res, hres, hout⟩ := (Option.any_eq_true _ _).mp hcall
  obtain ⟨haddrs, hblocks⟩ := of_decide_eq_true hout
  refine ⟨res, hres, by rw [haddrs]; simp, ?_⟩
  rintro ⟨a, hranges⟩
  have htiles := hranges.consecutive
  rw [haddrs] at htiles
  obtain rfl : 4096 = a := htiles.1
  exact hblocks hranges.inBlock

end Runs

end Ccbase.DynamicMem
