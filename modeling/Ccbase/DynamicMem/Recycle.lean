import Ccbase.DynamicMem.Calls

/-!
# Bufs that nobody has

The first allocation of the process that asks for memory to be recycled gives up
the buf it has found: the buf is in use, and its address is returned to nobody. In
runs of allocations and frees, every used buf is one that a client has exactly if
no allocation has done so.
-/

namespace Ccbase.DynamicMem

open Ccbase.Lib

/-- Every used buf is at an address that the client has. -/
def AllHeld (c : Client) : Prop := ∀ b x, UsedIn c.pool b x → x.deviceAddr ∈ c.live.map Prod.fst

/-- An allocation, or the free of an address that the client has. -/
def AllocOrFree (c : Client) : PoolCall → Prop
  | .alloc .. => True
  | .free a => a ∈ c.live.map Prod.fst
  | _ => False

/-- The call finds a buf and gives it up. -/
def Loses (c : Client) : PoolCall → Prop
  | .alloc size b needRecycle streamId _ =>
      givesUp needRecycle c.pool = true ∧
        available (alignMemorySize size) b (streamOf streamId) c.pool ≠ none
  | _ => False

instance decidableAllocOrFree (c : Client) (l : PoolCall) : Decidable (AllocOrFree c l) :=
  match l with
  | .alloc .. => inferInstanceAs (Decidable True)
  | .free a => inferInstanceAs (Decidable (a ∈ c.live.map Prod.fst))
  | .allocContinuous .. => inferInstanceAs (Decidable False)
  | .freePart .. => inferInstanceAs (Decidable False)
  | .setMemAllocUintSize .. => inferInstanceAs (Decidable False)
  | .releaseDeviceRes => inferInstanceAs (Decidable False)

instance decidableLoses (c : Client) (l : PoolCall) : Decidable (Loses c l) :=
  match l with
  | .alloc size b needRecycle streamId _ => inferInstanceAs (Decidable
      (givesUp needRecycle c.pool = true ∧
        available (alignMemorySize size) b (streamOf streamId) c.pool ≠ none))
  | .free _ => inferInstanceAs (Decidable False)
  | .allocContinuous .. => inferInstanceAs (Decidable False)
  | .freePart .. => inferInstanceAs (Decidable False)
  | .setMemAllocUintSize .. => inferInstanceAs (Decidable False)
  | .releaseDeviceRes => inferInstanceAs (Decidable False)

/-- A call of `AllocTensorMem` or `FreeTensorMem`. -/
def HoldStep (c : Client) (l : PoolCall) (c' : Client) : Prop :=
  c.call .plain l = some c' ∧ c.MayCall l ∧ AllocOrFree c l

section Alloc

variable {c : Client} {t : SplitTests} {p' : DynamicMemPoolBestFit} {size streamId : Nat}
  {d : DeviceAnswer}

/-- With what it returns, an allocation keeps what is held, and nothing else. -/
theorem allHeld_allocResult (hinv : ClientInv c) (hsize : size ≤ 2 ^ 62) (hd : Handed d c.pool)
    {r : Option Nat × DynamicMemPoolBestFit}
    (h : AllocResult t (alignMemorySize size) streamId d c.pool r) :
    AllHeld { pool := r.2
              live := match r.1 with
                | some a => (a, size) :: c.live
                | none => c.live } ↔ AllHeld c := by
  obtain ⟨hask, -⟩ := asked_alignMemorySize hsize
  obtain ⟨a, p'⟩ := r
  rcases h with ⟨hnone, hsame⟩ | ⟨a', hsome, halloc⟩
  · obtain rfl : a = none := hnone
    exact forall_congr' fun b => forall_congr' fun x => by rw [hsame.usedIn]
  · obtain rfl : a = some a' := hsome
    obtain ⟨b₀, z, -, haddr, -, hused⟩ := halloc.usedIn
    constructor
    · intro hheld b x hx
      have hmem := hheld b x ((hused b x).mpr (Or.inl hx))
      exact (List.mem_cons.mp hmem).resolve_left
        (halloc.addr_ne hinv.pool hask hd hx.1 hx.2)
    · intro hheld b x hx
      rcases (hused b x).mp hx with hold | ⟨-, rfl⟩
      · exact List.mem_cons_of_mem _ (hheld b x hold)
      · rw [haddr]
        exact List.mem_cons_self ..

/-- A buf that is returned to nobody is not held. -/
theorem not_allHeld_found (hinv : ClientInv c) {a : Nat} (hask : Asked size) (hd : Handed d c.pool)
    (h : Allocated t size streamId d c.pool p' a) : ¬ AllHeld ⟨p', c.live⟩ := by
  intro hheld
  obtain ⟨b, z, hz, rfl, -, -⟩ := h.usedIn
  exact hinv.not_mem_live hask hd h (hheld b z hz)

theorem loses_iff {b needRecycle : Bool} :
    Loses c (.alloc size b needRecycle streamId d) ↔ givesUp needRecycle c.pool = true ∧
      available (alignMemorySize size) b (streamOf streamId) c.pool ≠ none := Iff.rfl

theorem allHeld_alloc (hfind : Splits t.find) (hcreate : Splits t.create) (hinv : ClientInv c)
    {b needRecycle : Bool} (hsize : size ≤ 2 ^ 62) (hd : Handed d c.pool)
    {r : Option Nat × DynamicMemPoolBestFit}
    (h : AllocTensorResult t (alignMemorySize size) (streamOf streamId) b needRecycle d c.pool r) :
    AllHeld { pool := r.2
              live := match r.1 with
                | some a => (a, size) :: c.live
                | none => c.live } ↔
      AllHeld c ∧ ¬ Loses c (.alloc size b needRecycle streamId d) := by
  obtain ⟨hask, -⟩ := asked_alignMemorySize hsize
  cases h with
  | plain hkeeps h =>
      rw [allHeld_allocResult hinv hsize hd h, loses_iff]
      refine (and_iff_left ?_).symm
      rintro ⟨hgives, hfound⟩
      exact hfound (hkeeps hgives)
  | gaveUp hgives havailable hfound hinv₁ hd₁ h =>
      have hlost := not_allHeld_found hinv hask hd (hfound.allocated d)
      have hinv₁ := hinv.found hfind hcreate hask hd (hfound.allocated d)
      rw [allHeld_allocResult hinv₁ hsize hd₁ h, loses_iff]
      refine iff_of_false hlost ?_
      rintro ⟨-, hkept⟩
      exact hkept ⟨hgives, by rw [havailable]; simp⟩

end Alloc

theorem allHeld_free {c : Client} {p' : DynamicMemPoolBestFit} {a : Nat} (hinv : ClientInv c)
    (ha : a ∈ c.live.map Prod.fst) (h : c.pool.freeTensorMem a = some p') :
    AllHeld { pool := p', live := c.live.filter fun e => !decide (e.1 = a) } ↔ AllHeld c := by
  obtain ⟨e, he, rfl⟩ := List.mem_map.mp ha
  obtain ⟨b, x, ⟨hx, hused⟩, haddr, -⟩ := hinv.used he
  obtain ⟨p₁, L, blk, R, l, prev, next, r, hp₁, hfreed, helse⟩ :=
    freeTensorMem_spec hinv.pool hx hused
  rw [← haddr, hp₁] at h
  cases h
  have husedIn := hfreed.usedIn hinv.pool helse
  have hlive : ∀ i, i ∈ (c.live.filter fun e' => !decide (e'.1 = e.1)).map Prod.fst ↔
      i ∈ c.live.map Prod.fst ∧ i ≠ e.1 := by
    intro i
    simp only [List.mem_map, List.mem_filter, Bool.not_eq_true', decide_eq_false_iff_not]
    constructor
    · rintro ⟨e', ⟨he', hne⟩, rfl⟩
      exact ⟨⟨e', he', rfl⟩, hne⟩
    · rintro ⟨⟨e', he', rfl⟩, hne⟩
      exact ⟨e', ⟨he', hne⟩, rfl⟩
  constructor
  · intro hheld b' y hy
    by_cases hya : y.deviceAddr = x.deviceAddr
    · rw [hya, haddr]
      exact ha
    · exact ((hlive _).mp (hheld b' y ((husedIn b' y).mpr ⟨hy, hya⟩))).1
  · intro hheld b' y hy
    obtain ⟨hold, hne⟩ := (husedIn b' y).mp hy
    exact (hlive _).mpr ⟨hheld b' y hold, haddr ▸ hne⟩

theorem holdStep_spec {c c' : Client} {l : PoolCall} (hinv : ClientInv c) (h : HoldStep c l c') :
    ClientInv c' ∧ (AllHeld c' ↔ AllHeld c ∧ ¬ Loses c l) := by
  obtain ⟨hcall, hmay, hkind⟩ := h
  cases l with
  | alloc size b needRecycle streamId d =>
      obtain ⟨r, hr, rfl⟩ := Option.map_eq_some_iff.mp hcall
      have hresult := (allocTensorMem_result splits_isSplit splits_isSplit hinv.pool hmay.1 hmay.2 b
        needRecycle streamId).1 r hr
      exact ⟨hinv.allocTensor splits_isSplit splits_isSplit hmay.1 hmay.2 hresult,
        allHeld_alloc splits_isSplit splits_isSplit hinv hmay.1 hmay.2 hresult⟩
  | free a =>
      obtain ⟨p', hp', rfl⟩ := Option.map_eq_some_iff.mp hcall
      have hidle : ¬ IdleAt c.pool a := by
        rintro ⟨b, x, hx, hidle, rfl⟩
        obtain ⟨e, he, haddr⟩ := List.mem_map.mp hkind
        obtain ⟨b', y, hy, hya, -⟩ := hinv.used he
        obtain ⟨-, rfl⟩ := hinv.pool.eq_of_addr hx hy.1 (haddr.symm.trans hya.symm)
        rw [hy.2] at hidle
        cases hidle
      refine ⟨hinv.freed hidle hp', ?_⟩
      rw [allHeld_free hinv hkind hp']
      exact (and_iff_left fun hloses => hloses).symm
  | allocContinuous => exact hkind.elim
  | freePart => exact hkind.elim
  | setMemAllocUintSize => exact hkind.elim
  | releaseDeviceRes => exact hkind.elim

/-- In a run of allocations and frees, every used buf is held exactly if no step of the
run has lost one. -/
theorem bestFit_all_held_iff {recycled : Bool} {commonSize persistSize : Nat}
    {ls : List PoolCall} {c : Client}
    (h : Run HoldStep (Client.startAt recycled commonSize persistSize) ls c) :
    (∀ b x, UsedIn c.pool b x → x.deviceAddr ∈ c.live.map Prod.fst) ↔
      Run (fun c l c' => HoldStep c l c' ∧ ¬ Loses c l)
        (Client.startAt recycled commonSize persistSize) ls c := by
  refine (h.kept_iff (P := AllHeld) (G := fun c l => ¬ Loses c l) (I := ClientInv) ?_
    (ClientInv.startAt recycled commonSize persistSize) ?_
    fun _ _ _ hinv hstep => holdStep_spec hinv hstep).2
  · intro c l c₁ c₂ h₁ h₂
    have hcall := h₂.1
    rw [h₁.1] at hcall
    exact Option.some.inj hcall
  · intro b x hx
    obtain ⟨hmem, -⟩ := hx
    cases b <;> cases hmem

/-- Two allocations, the second of which is the first to ask for recycling, with nothing
idle. -/
theorem bestFit_all_held_two :
    ∃ c, Run HoldStep (Client.startAt false 1048576 1048576)
      [.alloc 512 false false 0 ⟨1073741824, 4096, 512⟩,
        .alloc 512 false true 0 ⟨1073741824, 8192, 1048576⟩] c ∧
      ∀ b x, UsedIn c.pool b x → x.deviceAddr ∈ c.live.map Prod.fst := by
  obtain ⟨c, hrun, -⟩ : ∃ c, Run (fun c l c' => c.call .plain l = some c' ∧
      (c.MayCall l ∧ AllocOrFree c l) ∧ ¬ Loses c l) (Client.startAt false 1048576 1048576)
      [.alloc 512 false false 0 ⟨1073741824, 4096, 512⟩,
        .alloc 512 false true 0 ⟨1073741824, 8192, 1048576⟩] c ∧ True :=
    Run.exists_of_exec (by decide +kernel)
  have hhold : Run HoldStep (Client.startAt false 1048576 1048576)
      [.alloc 512 false false 0 ⟨1073741824, 4096, 512⟩,
        .alloc 512 false true 0 ⟨1073741824, 8192, 1048576⟩] c :=
    hrun.imp fun _ _ _ h => ⟨h.1, h.2.1⟩
  exact ⟨c, hhold, (bestFit_all_held_iff hhold).mpr
    (hrun.imp fun _ _ _ h => ⟨⟨h.1, h.2.1⟩, h.2.2⟩)⟩

/-- The second allocation finds the rest of the block and gives it up. -/
theorem recycle_loses_buf :
    ∃ c, Run HoldStep (Client.startAt false 1048576 1048576)
      [.alloc 512 false false 0 ⟨1073741824, 4096, 1048576⟩,
        .alloc 512 false true 0 ⟨1073741824, 2097152, 1048576⟩] c ∧
      c.live = [(2097152, 512), (4096, 512)] ∧
      ¬ ∀ b x, UsedIn c.pool b x → x.deviceAddr ∈ c.live.map Prod.fst := by
  obtain ⟨c, hrun, hlive, x, hx, hused, haddr⟩ : ∃ c, Run HoldStep
      (Client.startAt false 1048576 1048576)
      [.alloc 512 false false 0 ⟨1073741824, 4096, 1048576⟩,
        .alloc 512 false true 0 ⟨1073741824, 2097152, 1048576⟩] c ∧
      c.live = [(2097152, 512), (4096, 512)] ∧
      ∃ x ∈ allBufs c.pool.commonMem.memBlockList, x.status = .used ∧ x.deviceAddr = 4608 :=
    Run.exists_of_exec (by decide +kernel)
  refine ⟨c, hrun, hlive, fun hheld => ?_⟩
  have hmem := hheld false x ⟨hx, hused⟩
  rw [hlive, haddr] at hmem
  simp at hmem

end Ccbase.DynamicMem
