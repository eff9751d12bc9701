import Ccbase.Memory.Sizes

/-!
# The counter of eagerly free memory

`eager_free_size_` is raised by the expander and by the bulk eager free, and
lowered by the mapper, before the device has answered. A mapping that fails
leaves its buffer eagerly free and the counter too low; as long as no mapping
fails the counter is exact.
-/

namespace Ccbase.Memory

open Ccbase.Lib Relation

variable {δ : Type} {dev : Device δ}

/-- A mapping that fails does not come back: the steps of the strict device are
the steps in which every mapping succeeds. -/
def Device.strict (dev : Device δ) : Device δ :=
  { dev with
    mmapDeviceMem := fun size addr d =>
      (dev.mmapDeviceMem size addr d).bind fun r => if r.1 = size then some r else none }

theorem Device.strict_mmap {size addr n : Nat} {d d' : δ}
    (h : dev.strict.mmapDeviceMem size addr d = some (n, d')) :
    n = size ∧ dev.mmapDeviceMem size addr d = some (n, d') := by
  obtain ⟨r, hr, h⟩ := Option.bind_eq_some_iff.mp h
  split at h
  · cases h
    exact ⟨by assumption, hr⟩
  · cases h

def DeviceLaw.strict (law : DeviceLaw dev) : DeviceLaw dev.strict where
  held := law.held
  fresh := law.fresh
  given := law.given
  kept := law.kept
  eagerFree := law.eagerFree
  mmap := fun _ _ _ _ _ h => law.mmap _ _ _ _ _ (Device.strict_mmap h).2
  sync := law.sync

/-- The status that `eager_free_size_` counts. -/
def isEagerFree (st : MemBufStatus) : Bool := decide (st = .eagerFree)

theorem sum_eager_sweeps {ε : Type} {cb : Callbacks ε} {m m' : Core ε} {n : Nat}
    (h : Sweeps cb m n m') :
    m'.bufs.sum (BufData.sizeIn isEagerFree) = m.bufs.sum (BufData.sizeIn isEagerFree) + n := by
  induction h with
  | refl => rfl
  | @convert n p d m' _ hp _ hst ih =>
      have hmod := sum_sizeIn_status (S := isEagerFree) hp .eagerFree
      have hd : d.sizeIn isEagerFree = 0 := by simp [BufData.sizeIn, isEagerFree, hst]
      rw [hd] at hmod
      rw [← Nat.add_assoc, ← ih]
      exact hmod
  | merge _ hD ih => exact (sum_sizeIn_merge hD).trans ih
  | unmap _ _ _ _ _ ih => exact ih

namespace Arena

variable {vmm : Bool} {law : DeviceLaw dev} {b₀ : Nat} {A A' : Arena δ}

theorem SweepsAll.sum_eager {n : Nat} (h : SweepsAll dev A n A') :
    A'.bufs.sum (BufData.sizeIn isEagerFree) = A.bufs.sum (BufData.sizeIn isEagerFree) + n := by
  induction h with
  | refl => rfl
  | tail _ _ hm ih =>
      rw [← Nat.add_assoc, ← ih]
      exact sum_eager_sweeps hm

/-- The counter is exact, up to a multiple of `2 ^ 64`. -/
def EagerExact (A : Arena δ) : Prop :=
  A.env.memStat.eagerFreeSize = A.bufs.sum (BufData.sizeIn isEagerFree) % sizeBound

/-- Buffers change, the counter does not have to. -/
theorem EagerExact.congr (h : EagerExact A)
    (hst : A'.env.memStat.eagerFreeSize = A.env.memStat.eagerFreeSize)
    (hsum : A'.bufs.sum (BufData.sizeIn isEagerFree) = A.bufs.sum (BufData.sizeIn isEagerFree)) :
    EagerExact A' := by
  unfold EagerExact
  rw [hst, hsum]
  exact h

theorem sizeIn_ofBlock (blk : MemBlock) (B : Nat) (eager : Bool) :
    (BufData.ofBlock blk B eager).sizeIn isEagerFree = if eager then blk.size else 0 := by
  cases eager <;> rfl

/-- The expander counts exactly the bytes that arrive eagerly free. -/
theorem EagerExact.grow (h : EagerExact A) (eager : Bool) (size : Nat) :
    (Pool.grow eager size A.env.memStat).eagerFreeSize =
      (A.bufs.sum (BufData.sizeIn isEagerFree) + if eager then size else 0) % sizeBound := by
  cases eager with
  | false => exact h
  | true =>
      show addSize A.env.memStat.eagerFreeSize size = _
      rw [show A.env.memStat.eagerFreeSize = _ from h, addSize_mod]
      rfl

theorem EagerExact.background (h : EagerExact A) (hs : Background dev.strict vmm A A') :
    EagerExact A' := by
  cases hs with
  | churn hvmm hc =>
      subst hvmm
      cases hc with
      | split hp hB hfree hn => exact h.congr rfl (sum_sizeIn_split hp hn)
      | mapFail hp hB hst hn hcb hk =>
          -- the strict device does not come back from a mapping that fails
          obtain ⟨d', hd', _⟩ := Pool.memMapper_eq dev.strict hcb
          exact absurd (Device.strict_mmap hd').1 hk
      | expand hcb =>
          rcases Pool.memBlockExpander_cases dev.strict hcb with
            ⟨hr, _⟩ | ⟨n, sz, ad, d', hd', hr⟩
          · cases hr
          · rcases hr with ⟨_, hr, _⟩ | ⟨_, sid, hr, rfl⟩
            · cases hr
            · cases hr
              unfold EagerExact
              show (Pool.grow _ sz A.env.memStat).eagerFreeSize = (A.bufs.new _).sum _ % _
              rw [h.grow, Heap.sum_new, sizeIn_ofBlock]
      | expandFail hcb =>
          rcases Pool.memBlockExpander_cases dev.strict hcb with
            ⟨_, rfl⟩ | ⟨n, sz, ad, d', hd', hr⟩
          · exact h
          · rcases hr with ⟨rfl, _, rfl⟩ | ⟨_, _, hr, _⟩
            · refine h.congr ?_ rfl
              show (Pool.grow _ 0 A.env.memStat).eagerFreeSize = _
              rw [h.grow, ite_self, Nat.add_zero]
              exact h.symm
            · cases hr
  | @sweep n A₁ hsw =>
      unfold EagerExact
      show addSize A₁.env.memStat.eagerFreeSize (n % sizeBound) = A₁.bufs.sum _ % sizeBound
      rw [hsw.frame.memStat, hsw.sum_eager, show A.env.memStat.eagerFreeSize = _ from h,
        addSize_mod, Nat.add_mod_mod]
  | sync _ => exact h

theorem EagerExact.path (h : EagerExact A)
    (hs : ReflTransGen (Background dev.strict vmm) A A') : EagerExact A' := by
  induction hs with
  | refl => exact h
  | tail _ hstep ih => exact ih.background hstep

/-- An idle buffer is not counted; an eagerly free one is mapped and counted no
longer. -/
theorem EagerExact.hand {size p : Nat} {k : AllocatorKey} (h : EagerExact A)
    (hh : Hand dev size p k A A') : EagerExact A' := by
  have henter : ∀ (B : Arena δ) (a : Nat) (v : Nat × AllocatorKey),
      EagerExact B → EagerExact (B.enter a v) := by
    intro B a v hB
    unfold enter
    split
    · exact hB
    · exact hB
  cases hh with
  | @mk s m d ht hd =>
      refine henter _ _ _ ?_
      cases ht with
      | @idle d₀ hp hB hst hsize =>
          refine h.congr rfl ?_
          have hmod := sum_sizeIn_status (S := isEagerFree) hp .used
          have hz : d₀.sizeIn isEagerFree = 0 := by
            simp [BufData.sizeIn, isEagerFree, hst]
          rw [hz] at hmod
          exact hmod
      | @eager d₀ env hp hB hst hsize hcb =>
          obtain ⟨d', _, rfl⟩ := Pool.memMapper_eq dev hcb
          have hmod := sum_sizeIn_status (S := isEagerFree) hp .used
          have hz : d₀.sizeIn isEagerFree = d₀.size := by
            simp [BufData.sizeIn, isEagerFree, hst]
          have hle : d₀.sizeIn isEagerFree ≤ A.bufs.sum (BufData.sizeIn isEagerFree) :=
            Heap.le_sum hp
          rw [hz] at hmod hle
          have hmod : (A.bufs.modify p fun x => { x with status := .used }).sum
              (BufData.sizeIn isEagerFree) + d₀.size =
                A.bufs.sum (BufData.sizeIn isEagerFree) := hmod
          unfold EagerExact
          show subSize A.env.memStat.eagerFreeSize d₀.size =
            (A.bufs.modify p fun x => { x with status := .used }).sum _ % _
          rw [show A.env.memStat.eagerFreeSize = _ from h, subSize_mod hle]
          congr 1
          omega

theorem EagerExact.free {addr : Nat} {ok : Bool} (hb : Base law vmm b₀ A) (h : EagerExact A)
    (hf : FreeStep addr A ok A') : EagerExact A' := by
  have hzero : ∀ p k d, A.live.lookup addr = some (p, k) → A.bufs.get p = some d →
      d.sizeIn isEagerFree = 0 := by
    intro p k d hl hp
    obtain ⟨d', hd', _, hst, _⟩ := hb.live _ _ _ hl
    rw [hp] at hd'
    cases hd'
    refine if_neg fun heq => hst (.inr ?_)
    simpa [isEagerFree] using heq
  cases hf with
  | absent _ => exact h
  | release hr =>
      cases hr with
      | mk hl hp hquiet hD =>
          refine h.congr rfl ?_
          have hmod := sum_sizeIn_status (S := isEagerFree) hp .idle
          rw [hzero _ _ _ hl hp] at hmod
          exact (sum_sizeIn_merges hD).trans hmod
  | retain hr =>
      cases hr with
      | mk hl hp hused =>
          refine h.congr rfl ?_
          have hmod := sum_sizeIn_status (S := isEagerFree) hp .usedByEvent
          rw [hzero _ _ _ hl hp] at hmod
          exact hmod

theorem EagerExact.plain {law : DeviceLaw dev.strict} (hb : Base law vmm b₀ A) (h : EagerExact A)
    (hs : Plain dev.strict vmm A A') : EagerExact A' := by
  cases hs with
  | quiet hpath => exact h.path hpath
  | hand hpath hh => exact (h.path hpath).hand hh
  | free hf => exact h.free hb hf

end Arena

namespace Pool

/-- In every run of `AllocTensorMem`, `FreeTensorMem` and `DefragMemory` in which
no mapping fails, `eager_free_size_` is the total size of the eagerly free
buffers. -/
theorem eager_free_size_exact {s : Pool δ} (law : DeviceLaw dev) (hdis : law.Disjoint)
    (hbd : dev.Bounded) (enableVmm enableTiny : Bool) (d : δ) (calls : List Call)
    (hrun : Run (fun s c s' => Step dev s c s' ∧ noEventCall c ∧ Step dev.strict s c s')
      (Pool.init enableVmm enableTiny d) calls s) :
    s.memStat.eagerFreeSize =
      s.bufs.sum fun b => if b.status = .eagerFree then b.size else 0 := by
  have hdis : law.strict.Disjoint := hdis
  have hbd : dev.strict.Bounded := hbd
  have hinv : PlainInv law.strict s ∧ s.arena.EagerExact := by
    refine hrun.state_inv (I := fun s => PlainInv law.strict s ∧ s.arena.EagerExact)
      ⟨PlainInv.init .., rfl⟩ ?_
    rintro s c s' ⟨h, hex⟩ ⟨_, hc, hs⟩
    obtain ⟨h', hd⟩ := h.step hdis hbd hc hs
    exact ⟨h', hex.plain h.inv.base hd.step⟩
  obtain ⟨h, hex⟩ := hinv
  have hle : s.arena.bufs.sum (BufData.sizeIn isEagerFree) ≤ s.arena.bufs.sum BufData.size :=
    Heap.sum_le_sum fun _ x _ => sizeIn_le x
  have hlt := h.sum_size_lt
  have hsum : s.arena.bufs.sum (BufData.sizeIn isEagerFree) =
      s.bufs.sum fun b => if b.status = .eagerFree then b.size else 0 := by
    show (s.bufs.map MemBuf.data).sum _ = _
    rw [Heap.sum_map]
    refine Heap.sum_congr fun p b _ => ?_
    simp only [BufData.sizeIn, isEagerFree, decide_eq_true_eq]
    rfl
  have hex : s.memStat.eagerFreeSize = s.arena.bufs.sum (BufData.sizeIn isEagerFree) % sizeBound :=
    hex
  rw [hex, Nat.mod_eq_of_lt (by omega), hsum]

theorem linearDevice_strict (eager : Bool) :
    (linearDevice eager false).strict = linearDevice eager false := by
  unfold Device.strict
  simp [linearDevice]

/-- Two buffers from an eagerly free block, one of them freed and swept up again. -/
theorem eager_free_size_exact_two :
    ∃ calls s, Run (fun s c s' => Step (linearDevice true false) s c s' ∧ noEventCall c ∧
          Step (linearDevice true false).strict s c s')
        (Pool.init true false (LinearState.init 0)) calls s ∧
      s.memStat.eagerFreeSize = 2 ^ 29 - 1536 ∧
      s.memStat.eagerFreeSize =
        s.bufs.sum fun b => if b.status = .eagerFree then b.size else 0 := by
  let calls : List Call := [.alloc 1000 false 0 512, .alloc 512 false 0 1536, .free 512,
    .alloc (2 ^ 29) false 0 2048]
  have hexec : ((exec (linearDevice true false) (fun _ => noEventCall)
      (Pool.init true false (LinearState.init 0)) calls).map fun s => s.memStat.eagerFreeSize) =
        some (2 ^ 29 - 1536) := by decide +kernel
  obtain ⟨s, hs, heq⟩ := Option.map_eq_some_iff.mp hexec
  have hrun : Run (fun s c s' => Step (linearDevice true false) s c s' ∧ noEventCall c ∧
      Step (linearDevice true false).strict s c s')
      (Pool.init true false (LinearState.init 0)) calls s := by
    rw [linearDevice_strict]
    exact (run_of_exec hs).imp
      fun _ _ _ h => ⟨h.1, h.2, h.1⟩
  exact ⟨calls, s, hrun, heq, eager_free_size_exact (linearLaw true false)
    (linearLaw_disjoint true false) (linearDevice_bounded true false) true false _ _ hrun⟩

/-- A single request on a device without physical memory: every failed mapping
lowers the counter, and nothing raises it again. -/
theorem eager_free_size_drifts :
    ∃ s, Run (fun s c s' => Step (linearDevice true true) s c s' ∧ noEventCall c)
        (Pool.init true false (LinearState.init 0)) [.alloc 512 false 0 0] s ∧
      s.memStat.eagerFreeSize = 2 ^ 31 - 4 * 512 ∧
      (s.bufs.sum fun b => if b.status = .eagerFree then b.size else 0) = 2 ^ 31 := by
  have hexec : ((exec (linearDevice true true) (fun _ => noEventCall)
      (Pool.init true false (LinearState.init 0)) [.alloc 512 false 0 0]).map fun s =>
        (s.memStat.eagerFreeSize,
        s.bufs.sum fun b => if b.status = .eagerFree then b.size else 0)) =
      some (2 ^ 31 - 4 * 512, 2 ^ 31) := by
    decide +kernel
  obtain ⟨s, hs, heq⟩ := Option.map_eq_some_iff.mp hexec
  exact ⟨s, run_of_exec hs, congrArg Prod.fst heq, congrArg Prod.snd heq⟩

end Pool

end Ccbase.Memory
