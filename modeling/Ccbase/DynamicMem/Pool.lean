import Ccbase.DynamicMem.Free

/-!
# The two pools together

What one call does to the pools: `AllocTensorMem` takes an idle buf of one pool,
or adds a block to one of them, or changes nothing; `FreeTensorMem` gives one buf
of one pool back. In each case the other pool stays as it is.
-/

namespace Ccbase.DynamicMem

open Ccbase.Lib

/-! ## Sizes -/

theorem asked_alignMemorySize {size : Nat} (h : size ≤ 2 ^ 62) :
    Asked (alignMemorySize size) ∧ size ≤ alignMemorySize size := by
  have hbound : sizeBound = 18446744073709551616 := rfl
  have hpow : (2 : Nat) ^ 62 = 4611686018427387904 := rfl
  rw [hpow] at h
  rw [Asked, hpow, alignMemorySize]
  split
  · rw [kDynamicMemAlignSize]
    omega
  · rw [addSize_eq (by rw [hbound, kDynamicMemAlignSize]; omega),
      subSize_eq (by rw [hbound, kDynamicMemAlignSize]; omega)
        (by rw [kDynamicMemAlignSize]; omega),
      mulSize_eq (by rw [hbound, kDynamicMemAlignSize]; omega), kDynamicMemAlignSize]
    omega

/-- The loop doubles until the size is reached. -/
theorem growAllocSize_isSome {size : Nat} (hask : Asked size) : ∀ (rounds v : Nat), 0 < v →
    2 ^ 62 ≤ v * 2 ^ rounds → ∃ n, growAllocSize size (rounds + 1) v = some n := by
  have hbound : sizeBound = 18446744073709551616 := rfl
  have hpow : (2 : Nat) ^ 62 = 4611686018427387904 := rfl
  obtain ⟨-, hle⟩ := hask
  intro rounds
  induction rounds with
  | zero =>
      intro v _ hv
      refine ⟨v, ?_⟩
      rw [Nat.pow_zero, Nat.mul_one] at hv
      rw [growAllocSize, if_neg (by omega)]
  | succ rounds ih =>
      intro v hpos hv
      rw [growAllocSize]
      split
      · rename_i hlt
        rw [mulSize_eq (by omega)]
        refine ih (v * 2) (by omega) ?_
        rw [Nat.mul_assoc, ← Nat.pow_succ']
        exact hv
      · exact ⟨v, rfl⟩

theorem calMemBlockAllocSize_isSome {unitSize size : Nat} {d : DeviceAnswer} (hask : Asked size)
    (hunit : 0 < unitSize) : ∃ n, calMemBlockAllocSize unitSize d.freeMemSize size = some n := by
  rw [calMemBlockAllocSize]
  split
  · exact ⟨0, rfl⟩
  · split
    · exact ⟨0, rfl⟩
    · obtain ⟨n, hn⟩ := growAllocSize_isSome hask 64 unitSize hunit (by
        have hpow : (2 : Nat) ^ 62 ≤ 2 ^ 64 := by decide
        exact hpow.trans (Nat.le_mul_of_pos_left _ hunit))
      exact ⟨min n d.freeMemSize, by rw [hn]; rfl⟩

/-! ## One of the two pools -/

namespace DynamicMemPoolBestFit

@[simp] theorem mng_setMng_same (b : Bool) (m : MemStatusManager) (p : DynamicMemPoolBestFit) :
    (p.setMng b m).mng b = m := by
  cases b <;> rfl

@[simp] theorem mng_setMng_other (b : Bool) (m : MemStatusManager) (p : DynamicMemPoolBestFit) :
    (p.setMng b m).mng (!b) = p.mng (!b) := by
  cases b <;> rfl

@[simp] theorem initRecycleMemory_setMng (b : Bool) (m : MemStatusManager)
    (p : DynamicMemPoolBestFit) : (p.setMng b m).initRecycleMemory = p.initRecycleMemory := by
  cases b <;> rfl

@[simp] theorem configUnitSize_setMng (b : Bool) (m : MemStatusManager)
    (p : DynamicMemPoolBestFit) : (p.setMng b m).configUnitSize = p.configUnitSize := by
  cases b <;> rfl

end DynamicMemPoolBestFit

open DynamicMemPoolBestFit

/-- `PoolInv p`: what holds of the two pools between calls. -/
structure PoolInv (p : DynamicMemPoolBestFit) : Prop where
  mngs : ∀ b, MngInv (p.mng b)
  apart : ∀ b, ∀ blk ∈ (p.mng b).memBlockList, ∀ blk' ∈ (p.mng (!b)).memBlockList,
    Apart blk blk'
  unit : p.commonMem.unitSize = p.configUnitSize

/-- Two states that differ in nothing that is ever read. -/
structure SamePool (p p' : DynamicMemPoolBestFit) : Prop where
  mngs : ∀ b, SameMng (p.mng b) (p'.mng b)
  config : p'.configUnitSize = p.configUnitSize

/-- The pool that is not meant stays as it is. -/
structure Elsewhere (b : Bool) (p p' : DynamicMemPoolBestFit) : Prop where
  other : SameMng (p.mng (!b)) (p'.mng (!b))
  config : p'.configUnitSize = p.configUnitSize

theorem SameMng.refl (m : MemStatusManager) : SameMng m m := ⟨rfl, rfl, rfl, fun _ => rfl⟩

theorem SameMng.trans {m m₁ m₂ : MemStatusManager} (h : SameMng m m₁) (h' : SameMng m₁ m₂) :
    SameMng m m₂ where
  blocks := h'.blocks.trans h.blocks
  mps := h'.mps.trans h.mps
  unitSize := h'.unitSize.trans h.unitSize
  index s := (h'.index s).trans (h.index s)

theorem SamePool.refl (p : DynamicMemPoolBestFit) : SamePool p p :=
  ⟨fun b => SameMng.refl (p.mng b), rfl⟩

theorem SamePool.trans {p p₁ p₂ : DynamicMemPoolBestFit} (h : SamePool p p₁)
    (h' : SamePool p₁ p₂) : SamePool p p₂ :=
  ⟨fun b => (h.mngs b).trans (h'.mngs b), h'.config.trans h.config⟩

theorem Elsewhere.of_same {b : Bool} {p p₁ p₂ : DynamicMemPoolBestFit} (h : SamePool p p₁)
    (h' : Elsewhere b p₁ p₂) : Elsewhere b p p₂ :=
  ⟨(h.mngs (!b)).trans h'.other, h'.config.trans h.config⟩

theorem elsewhere_setMng (b : Bool) (m : MemStatusManager) (p : DynamicMemPoolBestFit) :
    Elsewhere b p (p.setMng b m) :=
  ⟨by rw [mng_setMng_other]; exact SameMng.refl _, by simp⟩

theorem samePool_setMng {b : Bool} {m : MemStatusManager} {p : DynamicMemPoolBestFit}
    (h : SameMng (p.mng b) m) : SamePool p (p.setMng b m) := by
  refine ⟨fun b' => ?_, by simp⟩
  by_cases hb : b' = b
  · subst hb
    rw [mng_setMng_same]
    exact h
  · obtain rfl : b' = !b := by
      cases b <;> cases b' <;> simp_all
    rw [mng_setMng_other]
    exact SameMng.refl _

theorem Taken.of_same {split : Nat → Nat → Bool} {size : Nat} {m m₁ m' : MemStatusManager}
    {L R : List (DynamicMemBlock DynamicMemBuf)} {blk : DynamicMemBlock DynamicMemBuf}
    {l r : List DynamicMemBuf} {x : DynamicMemBuf} (hsame : SameMng m m₁)
    (h : Taken split size m₁ m' L blk R l x r) : Taken split size m m' L blk R l x r where
  place := by rw [← hsame.blocks]; exact h.place
  idle := h.idle
  first := by rw [← hsame.index]; exact h.first
  blocks := h.blocks
  mps := by rw [← hsame.mps]; exact h.mps
  unitSize := by rw [← hsame.unitSize]; exact h.unitSize
  index s := by rw [← hsame.index, ← hsame.index]; exact h.index s

theorem Created.of_same {split : Nat → Nat → Bool} {size addr len streamId : Nat}
    {m m₁ m' : MemStatusManager} {L R : List (DynamicMemBlock DynamicMemBuf)}
    (hsame : SameMng m m₁) (h : Created split size addr len streamId m₁ m' L R) :
    Created split size addr len streamId m m' L R where
  place := by rw [← hsame.blocks]; exact h.place
  blocks := h.blocks
  mps := by rw [← hsame.mps]; exact h.mps
  unitSize := by rw [← hsame.unitSize]; exact h.unitSize
  index s := by rw [← hsame.index, ← hsame.index]; exact h.index s

theorem PoolInv.same {p p' : DynamicMemPoolBestFit} (hinv : PoolInv p) (h : SamePool p p') :
    PoolInv p' where
  mngs b := (hinv.mngs b).same (h.mngs b)
  apart b := by
    rw [(h.mngs b).blocks, (h.mngs (!b)).blocks]
    exact hinv.apart b
  unit := by
    have hunit : p'.commonMem.unitSize = p.commonMem.unitSize := (h.mngs false).unitSize
    rw [hunit, h.config]
    exact hinv.unit

/-! ## An allocation -/

/-- What the device hands out is nothing, or a range apart from all blocks. -/
def Handed (d : DeviceAnswer) (p : DynamicMemPoolBestFit) : Prop :=
  d.size = 0 ∨ ∀ b, Fresh d.addr d.size (p.mng b).memBlockList

instance decidableHanded (d : DeviceAnswer) (p : DynamicMemPoolBestFit) :
    Decidable (Handed d p) :=
  inferInstanceAs (Decidable (_ ∨ _))

/-- From `p` to `p'`, `size` bytes at `a` have gone into use for a stream. -/
inductive Allocated (t : SplitTests) (size streamId : Nat) (d : DeviceAnswer)
    (p p' : DynamicMemPoolBestFit) : Nat → Prop where
  | taken (b : Bool) {L R : List (DynamicMemBlock DynamicMemBuf)}
      {blk : DynamicMemBlock DynamicMemBuf} {l r : List DynamicMemBuf} {x : DynamicMemBuf}
      (hstream : blk.streamId = streamId)
      (h : Taken t.find size (p.mng b) (p'.mng b) L blk R l x r) (he : Elsewhere b p p') :
      Allocated t size streamId d p p' x.deviceAddr
  | created (b : Bool) {L R : List (DynamicMemBlock DynamicMemBuf)} (hfits : size ≤ d.size)
      (h : Created t.create size d.addr d.size streamId (p.mng b) (p'.mng b) L R)
      (he : Elsewhere b p p') : Allocated t size streamId d p p' d.addr

/-- What an allocation returns, and the pools then. -/
def AllocResult (t : SplitTests) (size streamId : Nat) (d : DeviceAnswer)
    (p : DynamicMemPoolBestFit) (r : Option Nat × DynamicMemPoolBestFit) : Prop :=
  (r.1 = none ∧ SamePool p r.2) ∨ ∃ a, r.1 = some a ∧ Allocated t size streamId d p r.2 a

/-- From `p` to `p'`, `size` bytes of an idle buf at `a` have gone into use. -/
inductive Found (t : SplitTests) (size streamId : Nat) (p p' : DynamicMemPoolBestFit) :
    Nat → Prop where
  | mk (b : Bool) {L R : List (DynamicMemBlock DynamicMemBuf)}
      {blk : DynamicMemBlock DynamicMemBuf} {l r : List DynamicMemBuf} {x : DynamicMemBuf}
      (hstream : blk.streamId = streamId)
      (h : Taken t.find size (p.mng b) (p'.mng b) L blk R l x r) (he : Elsewhere b p p') :
      Found t size streamId p p' x.deviceAddr

/-- What a search returns, and the pools then. -/
def FindResult (t : SplitTests) (size streamId : Nat) (p : DynamicMemPoolBestFit)
    (r : Option Nat × DynamicMemPoolBestFit) : Prop :=
  (r.1 = none ∧ SamePool p r.2) ∨ ∃ a, r.1 = some a ∧ Found t size streamId p r.2 a

theorem Found.allocated {t : SplitTests} {size streamId a : Nat} {p p' : DynamicMemPoolBestFit}
    (h : Found t size streamId p p' a) (d : DeviceAnswer) :
    Allocated t size streamId d p p' a := by
  obtain ⟨b, hstream, h, he⟩ := h
  exact .taken b hstream h he

theorem FindResult.alloc {t : SplitTests} {size streamId : Nat} {p : DynamicMemPoolBestFit}
    {r : Option Nat × DynamicMemPoolBestFit} (h : FindResult t size streamId p r)
    (d : DeviceAnswer) : AllocResult t size streamId d p r := by
  rcases h with h | ⟨a, hsome, h⟩
  · exact Or.inl h
  · exact Or.inr ⟨a, hsome, h.allocated d⟩

theorem FindResult.of_same {t : SplitTests} {size streamId : Nat}
    {p p₁ : DynamicMemPoolBestFit} {r : Option Nat × DynamicMemPoolBestFit}
    (hsame : SamePool p p₁) (h : FindResult t size streamId p₁ r) :
    FindResult t size streamId p r := by
  rcases h with ⟨hnone, h⟩ | ⟨a, hsome, b, hstream, h, he⟩
  · exact Or.inl ⟨hnone, hsame.trans h⟩
  · exact Or.inr ⟨_, hsome, .mk b hstream (h.of_same (hsame.mngs b)) (he.of_same hsame)⟩

theorem Handed.same {d : DeviceAnswer} {p p' : DynamicMemPoolBestFit} (h : Handed d p)
    (hsame : SamePool p p') : Handed d p' := by
  rcases h with h | h
  · exact Or.inl h
  · refine Or.inr fun b => ?_
    rw [(hsame.mngs b).blocks]
    exact h b

section Alloc

variable {t : SplitTests} {size streamId : Nat} {d : DeviceAnswer}
  {p p₁ : DynamicMemPoolBestFit} {r : Option Nat × DynamicMemPoolBestFit}

theorem AllocResult.of_same (hsame : SamePool p p₁) (h : AllocResult t size streamId d p₁ r) :
    AllocResult t size streamId d p r := by
  rcases h with ⟨hnone, h⟩ | ⟨a, hsome, h⟩
  · exact Or.inl ⟨hnone, hsame.trans h⟩
  · refine Or.inr ⟨a, hsome, ?_⟩
    cases h with
    | taken b hstream h he =>
        exact .taken b hstream (h.of_same (hsame.mngs b)) (he.of_same hsame)
    | created b hfits h he =>
        exact .created b hfits (h.of_same (hsame.mngs b)) (he.of_same hsame)

/-- The address of the first idle buf of a pool that is large enough. -/
def candidate (size : Nat) (b : Bool) (streamId : Nat) (p : DynamicMemPoolBestFit) : Option Nat :=
  ((sizeMapOf (p.mng b).idleMemBufs streamId).lowerBound size).map Prod.snd

/-- The address of the idle buf that `FindAvailableMemBuf` takes. -/
def available (size : Nat) (b : Bool) (streamId : Nat) (p : DynamicMemPoolBestFit) : Option Nat :=
  if candidate size b streamId p = none ∧ b = true ∧ p.persistentMem.memBlockList ≠ [] then
    candidate size (!b) streamId p
  else candidate size b streamId p

theorem SamePool.candidate_eq (h : SamePool p p₁) (size : Nat) (b : Bool) (streamId : Nat) :
    candidate size b streamId p₁ = candidate size b streamId p := by
  rw [candidate, candidate, (h.mngs b).index]

/-- A search of one of the pools. -/
theorem findIn_spec (hfind : Splits t.find) (hinv : PoolInv p) (hask : Asked size) (b : Bool)
    (streamId : Nat) : ∃ r, p.findIn t size b streamId = some r ∧
      r.1 = candidate size b streamId p ∧ FindResult t size streamId p r := by
  rcases findMemBufInSpecifiedMng_spec hfind (hinv.mngs b) hask streamId with
    ⟨m', hm', hsame, hnone⟩ | ⟨m', L, blk, R, l, x, r, hm', hstream, htaken⟩
  · refine ⟨(none, p.setMng b m'), ?_, ?_, Or.inl ⟨rfl, samePool_setMng hsame⟩⟩
    · rw [findIn, hm']
      rfl
    · rw [candidate, hnone]
      rfl
  · have hfirst := htaken.first
    rw [hstream] at hfirst
    refine ⟨(some x.deviceAddr, p.setMng b m'), ?_, ?_, Or.inr ⟨_, rfl, ?_⟩⟩
    · rw [findIn, hm']
      rfl
    · rw [candidate, hfirst]
      rfl
    · exact .mk b hstream (by rw [mng_setMng_same]; exact htaken) (elsewhere_setMng b m' p)

theorem findIn_recycle {b : Bool} {r : Option Nat × DynamicMemPoolBestFit}
    (h : p.findIn t size b streamId = some r) :
    r.2.initRecycleMemory = p.initRecycleMemory := by
  obtain ⟨r', -, rfl⟩ := Option.map_eq_some_iff.mp h
  exact initRecycleMemory_setMng b r'.2 p

/-- A search leaves the flag as it is. -/
theorem findAvailableMemBuf_recycle {b : Bool} {r : Option Nat × DynamicMemPoolBestFit}
    (h : p.findAvailableMemBuf t size b streamId = some r) :
    r.2.initRecycleMemory = p.initRecycleMemory := by
  simp only [findAvailableMemBuf, Option.bind_eq_bind] at h
  obtain ⟨r₁, h₁, h⟩ := Option.bind_eq_some_iff.mp h
  split at h
  · exact (findIn_recycle h).trans (findIn_recycle h₁)
  · cases h
    exact findIn_recycle h₁

theorem findAvailableMemBuf_spec (hfind : Splits t.find) (hinv : PoolInv p) (hask : Asked size)
    (b : Bool) (streamId : Nat) :
    ∃ r, p.findAvailableMemBuf t size b streamId = some r ∧
      r.1 = available size b streamId p ∧ FindResult t size streamId p r := by
  obtain ⟨⟨a, p₁⟩, hr, hcand, hresult⟩ := findIn_spec hfind hinv hask b streamId
  simp only at hcand
  simp only [findAvailableMemBuf, hr, Option.bind_eq_bind, Option.bind_some, available, ← hcand]
  rcases hresult with ⟨hnone, hsame⟩ | ⟨a', hsome, hfound⟩
  · have hblocks : p₁.persistentMem.memBlockList = p.persistentMem.memBlockList :=
      (hsame.mngs true).blocks
    rw [hblocks]
    split
    · obtain ⟨r, hr, hcand', hresult⟩ := findIn_spec hfind (hinv.same hsame) hask (!b) streamId
      exact ⟨r, hr, hcand'.trans (hsame.candidate_eq size (!b) streamId), hresult.of_same hsame⟩
    · exact ⟨_, rfl, rfl, Or.inl ⟨hnone, hsame⟩⟩
  · obtain rfl : a = some a' := hsome
    exact ⟨_, by rw [if_neg (by simp)], by rw [if_neg (by simp)], Or.inr ⟨a', rfl, hfound⟩⟩

/-- A state whose unit of growth is set back to what it is. -/
theorem PoolInv.reset (hinv : PoolInv p) :
    { p with commonMem := { p.commonMem with unitSize := p.configUnitSize } } = p := by
  have hcommon : { p.commonMem with unitSize := p.configUnitSize } = p.commonMem := by
    rw [← hinv.unit]
  rw [hcommon]

theorem addMemBlockAndMemBuf_spec (hfind : Splits t.find) (hcreate : Splits t.create)
    (hinv : PoolInv p) (hask : Asked size) (hd : Handed d p) (b needRecycle : Bool)
    (streamId : Nat) :
    (∀ r, p.addMemBlockAndMemBuf t size b needRecycle streamId d = some r →
      AllocResult t size streamId d p r) ∧
    ((∀ b, 0 < (p.mng b).unitSize) →
      (p.addMemBlockAndMemBuf t size b needRecycle streamId d).isSome) := by
  simp only [addMemBlockAndMemBuf, hinv.reset]
  generalize (if b = true ∧ needRecycle = false ∧ p.persistentMem.memBlockList ≠ [] then false
    else b) = b'
  have hfound := findAvailableMemBuf_spec hfind hinv hask (!b') streamId
  cases hcal : calMemBlockAllocSize (p.mng b').unitSize d.freeMemSize size with
  | none =>
      constructor
      · intro r hr
        cases hr
      · intro hunits
        obtain ⟨n, hn⟩ := calMemBlockAllocSize_isSome (d := d) hask (hunits b')
        rw [hn] at hcal
        cases hcal
  | some n =>
      simp only [Option.bind_eq_bind, Option.bind_some]
      split
      · obtain ⟨r, hr, -, hresult⟩ := hfound
        rw [hr]
        exact ⟨fun r' hr' => by cases hr'; exact hresult.alloc d, fun _ => rfl⟩
      · split
        · exact ⟨fun r' hr' => by cases hr'; exact Or.inl ⟨rfl, SamePool.refl p⟩, fun _ => rfl⟩
        · rename_i hfits
          have hsize : size ≤ d.size := Nat.le_of_not_lt hfits
          have hfresh : Fresh d.addr d.size (p.mng b').memBlockList := by
            rcases hd with hd | hd
            · have := hask.1
              omega
            · exact hd b'
          obtain ⟨m', L, R, hm', hcreated⟩ :=
            createMemBlockAndMemBuf_spec hcreate (hinv.mngs b') hfresh hask hsize streamId
          rw [hm']
          constructor
          · intro r hr
            cases hr
            refine Or.inr ⟨d.addr, rfl, ?_⟩
            exact .created b' hsize (by rw [mng_setMng_same]; exact hcreated)
              (elsewhere_setMng b' m' p)
          · intro _
            rfl

/-- The stream that an allocation is for. -/
def streamOf (streamId : Nat) : Nat :=
  if streamId = uint32Max then kDefaultStreamIndex else streamId

end Alloc

/-! ## The invariant over a call -/

section Inv

variable {p p' : DynamicMemPoolBestFit}

/-- One pool keeps its invariant, and its blocks stay apart from those of the
other. -/
theorem PoolInv.step (hinv : PoolInv p) {b : Bool} (he : Elsewhere b p p')
    (hmng : MngInv (p'.mng b))
    (hranges : ∀ blk ∈ (p'.mng b).memBlockList, ∀ blk' ∈ (p.mng (!b)).memBlockList,
      Apart blk blk') (hunit : (p'.mng b).unitSize = (p.mng b).unitSize) : PoolInv p' := by
  have hother : MngInv (p'.mng (!b)) := (hinv.mngs (!b)).same he.other
  have hapart : ∀ blk ∈ (p'.mng b).memBlockList, ∀ blk' ∈ (p'.mng (!b)).memBlockList,
      Apart blk blk' := by
    rw [he.other.blocks]
    exact hranges
  have hunit' : p'.commonMem.unitSize = p.commonMem.unitSize := by
    cases b with
    | false => exact hunit
    | true => exact he.other.unitSize
  refine ⟨?_, ?_, ?_⟩
  · cases b
    · exact Bool.forall_bool.mpr ⟨hmng, hother⟩
    · exact Bool.forall_bool.mpr ⟨hother, hmng⟩
  · cases b
    · exact Bool.forall_bool.mpr ⟨hapart, fun x hx y hy => (hapart y hy x hx).symm⟩
    · exact Bool.forall_bool.mpr ⟨fun x hx y hy => (hapart y hy x hx).symm, hapart⟩
  · rw [hunit', he.config]
    exact hinv.unit

/-- Writing the bufs of a block moves no block. -/
theorem apart_setBufs {blocks L R bs : List (DynamicMemBlock DynamicMemBuf)}
    {blk : DynamicMemBlock DynamicMemBuf} {bufs : List DynamicMemBuf}
    (hblocks : blocks = L ++ blk :: R) (h : ∀ x ∈ blocks, ∀ y ∈ bs, Apart x y) :
    ∀ x ∈ L ++ blk.setBufs bufs :: R, ∀ y ∈ bs, Apart x y := by
  subst hblocks
  intro x hx y hy
  rcases List.mem_append.mp hx with hx | hx
  · exact h x (by simp [hx]) y hy
  · rcases List.mem_cons.mp hx with rfl | hx
    · exact h blk (by simp) y hy
    · exact h x (by simp [hx]) y hy

theorem Allocated.inv {t : SplitTests} {size streamId a : Nat} {d : DeviceAnswer}
    (hfind : Splits t.find) (hcreate : Splits t.create) (hinv : PoolInv p) (hask : Asked size)
    (hd : Handed d p) (h : Allocated t size streamId d p p' a) : PoolInv p' := by
  cases h with
  | taken b hstream h he =>
      refine hinv.step he (h.inv hfind (hinv.mngs b) hask) ?_ h.unitSize
      rw [h.blocks]
      exact apart_setBufs h.place.blocks (hinv.apart b)
  | created b hfits h he =>
      have hfresh : ∀ b, Fresh d.addr d.size (p.mng b).memBlockList := by
        rcases hd with hd | hd
        · have := hask.1
          omega
        · exact hd
      refine hinv.step he (h.inv hcreate (hinv.mngs b) (hfresh b) hask hfits) ?_ h.unitSize
      rw [h.blocks]
      refine apart_setBufs h.place ?_
      intro x hx y hy
      rcases List.mem_cons.mp ((perm_insertMemBlock _ _).mem_iff.mp hx) with rfl | hx
      · exact (hfresh (!b)).apart y hy
      · exact hinv.apart b x hx y hy

theorem freed_poolInv (hinv : PoolInv p) {b : Bool} {L R : List (DynamicMemBlock DynamicMemBuf)}
    {blk : DynamicMemBlock DynamicMemBuf} {l r : List DynamicMemBuf} {x : DynamicMemBuf}
    {prev next : Option DynamicMemBuf}
    (h : Freed (p.mng b) (p'.mng b) L blk R l prev x next r) (he : Elsewhere b p p') :
    PoolInv p' := by
  refine hinv.step he (h.inv (hinv.mngs b)) ?_ h.unitSize
  rw [h.blocks]
  exact apart_setBufs h.place.blocks (hinv.apart b)

/-! ## `AllocTensorMem` -/

/-- The first allocation that asks for memory to be recycled gives up what it has found. -/
def givesUp (needRecycle : Bool) (p : DynamicMemPoolBestFit) : Bool :=
  needRecycle && !p.initRecycleMemory

section AllocTensor

variable {t : SplitTests} {size streamId a : Nat} {d : DeviceAnswer}

theorem Allocated.unitSize (h : Allocated t size streamId d p p' a) (b : Bool) :
    (p'.mng b).unitSize = (p.mng b).unitSize := by
  obtain ⟨b', hmng, he⟩ : ∃ b', (p'.mng b').unitSize = (p.mng b').unitSize ∧ Elsewhere b' p p' := by
    cases h with
    | taken b' hstream h he => exact ⟨b', h.unitSize, he⟩
    | created b' hfits h he => exact ⟨b', h.unitSize, he⟩
  cases b <;> cases b'
  · exact hmng
  · exact he.other.unitSize
  · exact he.other.unitSize
  · exact hmng

/-- A buf that goes into use moves no block. -/
theorem Found.handed (h : Found t size streamId p p' a) (hd : Handed d p) : Handed d p' := by
  cases h with
  | @mk b L R blk l r x hstream h he
  rcases hd with hd | hd
  · exact Or.inl hd
  refine Or.inr fun b' => ?_
  by_cases hb : b' = b
  · subst hb
    refine ⟨(hd b').pos, (hd b').le, ?_⟩
    rw [h.blocks]
    have hapart := (hd b').apart
    rw [h.place.blocks] at hapart
    intro blk' hblk'
    rcases List.mem_append.mp hblk' with hblk' | hblk'
    · exact hapart blk' (by simp [hblk'])
    · rcases List.mem_cons.mp hblk' with rfl | hblk'
      · exact hapart blk (by simp)
      · exact hapart blk' (by simp [hblk'])
  · obtain rfl : b' = !b := by
      cases b <;> cases b' <;> simp_all
    rw [he.other.blocks]
    exact hd (!b)

/-- From `p` an allocation ends in `r`: with no more than the allocation, or after a buf
that was found has gone into use and been given up. -/
inductive AllocTensorResult (t : SplitTests) (size streamId : Nat) (b needRecycle : Bool)
    (d : DeviceAnswer) (p : DynamicMemPoolBestFit) (r : Option Nat × DynamicMemPoolBestFit) :
    Prop where
  | plain (hkeeps : givesUp needRecycle p = true → available size b streamId p = none)
      (h : AllocResult t size streamId d p r)
  | gaveUp {p₁ : DynamicMemPoolBestFit} {a : Nat} (hgives : givesUp needRecycle p = true)
      (havailable : available size b streamId p = some a)
      (hfound : Found t size streamId p p₁ a) (hinv : PoolInv p₁) (hd : Handed d p₁)
      (h : AllocResult t size streamId d p₁ r)

theorem allocTensorMem_result (hfind : Splits t.find) (hcreate : Splits t.create)
    (hinv : PoolInv p) (hsize : size ≤ 2 ^ 62) (hd : Handed d p) (b needRecycle : Bool)
    (streamId : Nat) :
    (∀ r, p.allocTensorMem t size b needRecycle streamId d = some r →
      AllocTensorResult t (alignMemorySize size) (streamOf streamId) b needRecycle d p r) ∧
    ((∀ b, 0 < (p.mng b).unitSize) →
      (p.allocTensorMem t size b needRecycle streamId d).isSome) := by
  obtain ⟨hask, -⟩ := asked_alignMemorySize hsize
  obtain ⟨⟨a, p₁⟩, hr, havailable, hresult⟩ :=
    findAvailableMemBuf_spec hfind hinv hask b (streamOf streamId)
  have hflag : p₁.initRecycleMemory = p.initRecycleMemory := findAvailableMemBuf_recycle hr
  rw [streamOf] at hr
  simp only [allocTensorMem, hr, Option.bind_eq_bind, Option.bind_some, hflag]
  rw [show (needRecycle && !p.initRecycleMemory) = givesUp needRecycle p from rfl]
  generalize hp₂ : (if givesUp needRecycle p = true then
    { p₁ with initRecycleMemory := true } else p₁) = p₂
  have hsame₂ : SamePool p₁ p₂ := by
    rw [← hp₂]
    split
    · exact ⟨Bool.forall_bool.mpr ⟨SameMng.refl _, SameMng.refl _⟩, rfl⟩
    · exact SamePool.refl p₁
  -- the block that is added when nothing was found or what was found is given up
  have hadd : PoolInv p₁ → Handed d p₁ →
      (∀ r, p₂.addMemBlockAndMemBuf t (alignMemorySize size) b needRecycle (streamOf streamId) d =
        some r → AllocResult t (alignMemorySize size) (streamOf streamId) d p₁ r) ∧
      ((∀ b, 0 < (p₁.mng b).unitSize) → (p₂.addMemBlockAndMemBuf t (alignMemorySize size) b
        needRecycle (streamOf streamId) d).isSome) := by
    intro hinv₁ hd₁
    obtain ⟨hresult, hdefined⟩ := addMemBlockAndMemBuf_spec hfind hcreate (hinv₁.same hsame₂) hask
      (hd₁.same hsame₂) b needRecycle (streamOf streamId)
    refine ⟨fun r hr => (hresult r hr).of_same hsame₂, fun hunits => hdefined fun b => ?_⟩
    rw [(hsame₂.mngs b).unitSize]
    exact hunits b
  rcases hresult with ⟨hnone, hsame⟩ | ⟨a', hsome, hfound⟩
  · obtain rfl : a = none := hnone
    obtain ⟨hresult, hdefined⟩ := hadd (hinv.same hsame) (hd.same hsame)
    rw [ite_self]
    refine ⟨fun r hr => .plain (fun _ => havailable.symm) ((hresult r hr).of_same hsame),
      fun hunits => hdefined fun b => ?_⟩
    rw [(hsame.mngs b).unitSize]
    exact hunits b
  · obtain rfl : a = some a' := hsome
    have hinv₁ := (hfound.allocated d).inv hfind hcreate hinv hask hd
    have hd₁ := hfound.handed hd
    obtain ⟨hresult, hdefined⟩ := hadd hinv₁ hd₁
    cases hgives : givesUp needRecycle p with
    | false =>
        rw [hgives] at hp₂
        subst hp₂
        refine ⟨fun r hr => ?_, fun _ => rfl⟩
        cases hr
        refine .plain (fun h => ?_) (Or.inr ⟨a', rfl, hfound.allocated d⟩)
        rw [hgives] at h
        cases h
    | true =>
        refine ⟨fun r hr => .gaveUp hgives havailable.symm hfound hinv₁ hd₁ (hresult r hr),
          fun hunits => hdefined fun b => ?_⟩
        rw [(hfound.allocated d).unitSize b]
        exact hunits b

theorem allocTensorMem_spec (hfind : Splits t.find) (hcreate : Splits t.create)
    (hinv : PoolInv p) (hsize : size ≤ 2 ^ 62) (hd : Handed d p) (b : Bool) (streamId : Nat) :
    (∀ r, p.allocTensorMem t size b false streamId d = some r →
      AllocResult t (alignMemorySize size) (streamOf streamId) d p r) ∧
    ((∀ b, 0 < (p.mng b).unitSize) →
      (p.allocTensorMem t size b false streamId d).isSome) := by
  obtain ⟨hresult, hdefined⟩ :=
    allocTensorMem_result hfind hcreate hinv hsize hd b false streamId
  refine ⟨fun r hr => ?_, hdefined⟩
  cases hresult r hr with
  | plain _ h => exact h
  | gaveUp hgives => cases hgives

end AllocTensor

/-! ## Bufs of both pools -/

/-- A buf of one of the pools. -/
def InPool (p : DynamicMemPoolBestFit) (b : Bool) (x : DynamicMemBuf) : Prop :=
  x ∈ allBufs (p.mng b).memBlockList

theorem PoolInv.disjoint (hinv : PoolInv p) {b b' : Bool} {x y : DynamicMemBuf}
    (hx : InPool p b x) (hy : InPool p b' y) :
    (b = b' ∧ x = y) ∨ x.deviceAddr + x.size ≤ y.deviceAddr ∨
      y.deviceAddr + y.size ≤ x.deviceAddr := by
  by_cases hb : b' = b
  · subst hb
    rcases (hinv.mngs b').placed.eq_or_disjoint hx hy with h | h
    · exact Or.inl ⟨rfl, h⟩
    · exact Or.inr h
  · obtain rfl : b' = !b := by
      cases b <;> cases b' <;> simp_all
    obtain ⟨blk, hblk, hx⟩ := mem_allBufs.mp hx
    obtain ⟨blk', hblk', hy⟩ := mem_allBufs.mp hy
    have hx := (hinv.mngs b).placed.inside hblk hx
    have hy := (hinv.mngs (!b)).placed.inside hblk' hy
    have hapart := hinv.apart b blk hblk blk' hblk'
    rw [Apart] at hapart
    omega

theorem PoolInv.size_pos (hinv : PoolInv p) {b : Bool} {x : DynamicMemBuf} (hx : InPool p b x) :
    0 < x.size := by
  obtain ⟨blk, hblk, hx⟩ := mem_allBufs.mp hx
  exact ((hinv.mngs b).placed.inside hblk hx).2.2

/-- The address of a buf says which buf it is, and of which pool. -/
theorem PoolInv.eq_of_addr (hinv : PoolInv p) {b b' : Bool} {x y : DynamicMemBuf}
    (hx : InPool p b x) (hy : InPool p b' y) (haddr : x.deviceAddr = y.deviceAddr) :
    b = b' ∧ x = y := by
  have hxpos := hinv.size_pos hx
  have hypos := hinv.size_pos hy
  rcases hinv.disjoint hx hy with h | h
  · exact h
  · omega

/-! ## A free -/

/-- What a search by address returns is in the pool. -/
theorem of_findStrict {m : MemStatusManager} {a : Nat} {blk : DynamicMemBlock DynamicMemBuf}
    {l r : List DynamicMemBuf} {x : DynamicMemBuf}
    (h : findStrict a m = some (blk, l, x, r)) :
    blk ∈ m.memBlockList ∧ blk.blockAllMemBufMap = l ++ x :: r ∧ x.deviceAddr = a := by
  simp only [findStrict, Option.bind_eq_bind] at h
  obtain ⟨blk', hblk, h⟩ := Option.bind_eq_some_iff.mp h
  obtain ⟨it, hit, h⟩ := Option.bind_eq_some_iff.mp h
  cases h
  exact ⟨mem_of_findMemBlock hblk, findBuf_eq_some hit⟩

theorem findByStrictAddr_spec (hinv : PoolInv p) {b : Bool}
    {L R : List (DynamicMemBlock DynamicMemBuf)} {blk : DynamicMemBlock DynamicMemBuf}
    {l r : List DynamicMemBuf} {x : DynamicMemBuf} (hat : At (p.mng b).memBlockList L blk R l x r) :
    p.findByStrictAddr x.deviceAddr = some (b, blk, l, x, r) := by
  have hfound : findStrict x.deviceAddr (p.mng b) = some (blk, l, x, r) := by
    simp only [findStrict, findMemBlock_at (hinv.mngs b).placed hat,
      findBuf_at (hinv.mngs b).placed hat, Option.bind_eq_bind, Option.bind_some]
  have hx : InPool p b x := mem_allBufs.mpr ⟨blk, Placed.mem_at hat, Placed.mem_buf_at hat⟩
  cases b with
  | false =>
      have hfound : findStrict x.deviceAddr p.commonMem = some (blk, l, x, r) := hfound
      rw [findByStrictAddr, hfound]
  | true =>
      have hcommon : findStrict x.deviceAddr p.commonMem = none := by
        cases hstrict : findStrict x.deviceAddr p.commonMem with
        | none => rfl
        | some found =>
            obtain ⟨blk', l', y, r'⟩ := found
            obtain ⟨hblk', hbufs, haddr⟩ := of_findStrict hstrict
            have hy : InPool p false y :=
              mem_allBufs.mpr ⟨blk', hblk', by rw [hbufs]; simp⟩
            have hb := (hinv.eq_of_addr hy hx haddr).1
            cases hb
      have hfound : findStrict x.deviceAddr p.persistentMem = some (blk, l, x, r) := hfound
      rw [findByStrictAddr, hcommon, hfound]
      rfl

theorem freeTensorMem_spec (hinv : PoolInv p) {b : Bool} {x : DynamicMemBuf} (hx : InPool p b x)
    (hused : x.status = .used) :
    ∃ p' L blk R l prev next r, p.freeTensorMem x.deviceAddr = some p' ∧
      Freed (p.mng b) (p'.mng b) L blk R l prev x next r ∧ Elsewhere b p p' := by
  obtain ⟨blk, hblk, hxblk⟩ := mem_allBufs.mp hx
  obtain ⟨L, R, l, r, hat⟩ := exists_at hblk hxblk
  obtain ⟨m', l', prev, next, r', hm', hfreed⟩ := combineMemBuf_spec (hinv.mngs b) hat hused
  refine ⟨p.setMng b m', L, blk, R, l', prev, next, r', ?_, by rw [mng_setMng_same]; exact hfreed,
    elsewhere_setMng b m' p⟩
  rw [freeTensorMem, findByStrictAddr_spec hinv hat]
  show ((p.mng b).combineMemBuf blk (l, x, r)).map _ = _
  rw [hm']
  rfl

end Inv

end Ccbase.DynamicMem
