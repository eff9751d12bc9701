import Ccbase.Lib.Bytes
import Ccbase.Lib.Run
import Ccbase.Lib.SizeT

/-!
# `BufferPool`

A pool of blocks of one size, cut from buffers of `growSize` blocks each. A block that is
given back holds the pointer to the next free one. The blocks of a buffer start
`growSize` bytes apart, whatever their size is.

A call comes with what its environment decides: where `new` puts a buffer, and what is
stored in the blocks by those who have them.
-/

namespace Ccbase.Optimizer

open Ccbase.Lib

def growSize : Nat := 1024

/-- The buffers are `firstBuffer` and those behind it, each as its `buffer_`. A null pointer
is `0`. The blocks that are borrowed are not part of the code's state. -/
structure BufferPool where
  blockSize : Nat
  memory : Memory
  firstFreeBlock : Nat := 0
  buffers : List Nat := []
  bufferedBlocks : Nat := growSize
  borrowed : List Nat := []

namespace BufferPool

def new (blockSize : Nat) (memory : Memory) : BufferPool := { blockSize, memory }

/-- The bytes of a buffer. -/
def bufferSize (s : BufferPool) : Nat := mulSize growSize s.blockSize

def getBlock (buffer index : Nat) : Nat := buffer + index * growSize

/-- A new buffer if the blocks of the last one are used up. -/
def grow (base : Nat) (s : BufferPool) : BufferPool :=
  if s.bufferedBlocks ≥ growSize then { s with buffers := base :: s.buffers, bufferedBlocks := 0 }
  else s

/-- `base` is the address of the bytes of a new buffer. -/
def borrow (base : Nat) (s : BufferPool) : Option (Nat × BufferPool) :=
  if s.firstFreeBlock ≠ 0 then
    let block := s.firstFreeBlock
    some (block, { s with
      firstFreeBlock := s.memory.read block 8
      borrowed := block :: s.borrowed })
  else
    let s := s.grow base
    s.buffers.head?.map fun firstBuffer =>
      let ret := getBlock firstBuffer s.bufferedBlocks
      (ret, { s with bufferedBlocks := s.bufferedBlocks + 1, borrowed := ret :: s.borrowed })

def giveBack (pointer : Nat) (s : BufferPool) : BufferPool :=
  { s with
    memory := s.memory.write pointer 8 s.firstFreeBlock
    firstFreeBlock := pointer
    borrowed := s.borrowed.erase pointer }

inductive Call where
  | borrow (base : Nat)
  | giveBack (pointer : Nat)
  | store (addr : Nat) (bytes : List UInt8)

def stepFn (s : BufferPool) : Call → Option BufferPool
  | .borrow base => (s.borrow base).map Prod.snd
  | .giveBack pointer => some (s.giveBack pointer)
  | .store addr bytes => some { s with memory := s.memory.writeBytes addr bytes }

/-- `[p, p + n)` and `[q, q + k)` have no address in common. -/
def Apart (p n q k : Nat) : Prop := p + n ≤ q ∨ q + k ≤ p

/-- A new buffer lies in memory that is not in use, blocks that are given back are borrowed,
and only these are written to. -/
def Allowed (s : BufferPool) : Call → Prop
  | .borrow base =>
      s.firstFreeBlock = 0 → s.bufferedBlocks ≥ growSize →
        base ≠ 0 ∧ base + s.bufferSize ≤ sizeBound ∧
          ∀ b ∈ s.buffers, Apart base s.bufferSize b s.bufferSize
  | .giveBack pointer => pointer ∈ s.borrowed
  | .store addr bytes => ∃ p ∈ s.borrowed, p ≤ addr ∧ addr + bytes.length ≤ p + s.blockSize

def Step (s : BufferPool) (c : Call) (s' : BufferPool) : Prop :=
  s.stepFn c = some s' ∧ s.Allowed c

/-- The borrowed blocks lie in the buffers, apart from each other. -/
structure Sound (s : BufferPool) : Prop where
  inside : ∀ p ∈ s.borrowed, ∃ b ∈ s.buffers, b ≤ p ∧ p + s.blockSize ≤ b + s.bufferSize
  apart : s.borrowed.Pairwise fun p q => Apart p s.blockSize q s.blockSize

/-- The index of the next new block. -/
def nextIndex (s : BufferPool) : Nat :=
  if s.bufferedBlocks ≥ growSize then 0 else s.bufferedBlocks

/-- A new block ends in its buffer, and behind the block in front of it. -/
def Fits (s : BufferPool) : Call → Prop
  | .borrow _ =>
      s.firstFreeBlock = 0 →
        s.nextIndex * growSize + s.blockSize ≤ s.bufferSize ∧
          (s.nextIndex = 0 ∨ s.blockSize ≤ growSize)
  | _ => True

/-! ## The free blocks -/

/-- The blocks at `ps` are linked, the first of them at `first`. -/
def FreeList (m : Memory) : Nat → List Nat → Prop
  | first, [] => first = 0
  | first, p :: ps => first = p ∧ p ≠ 0 ∧ FreeList m (m.read p 8) ps

theorem FreeList.congr {m m' : Memory} {ps : List Nat} (heq : ∀ p ∈ ps, m'.read p 8 = m.read p 8) :
    ∀ {first : Nat}, FreeList m first ps → FreeList m' first ps := by
  induction ps with
  | nil => exact fun h => h
  | cons p ps ih =>
      rintro first ⟨rfl, hne, hrest⟩
      refine ⟨rfl, hne, ?_⟩
      rw [heq first List.mem_cons_self]
      exact ih (fun q hq => heq q (List.mem_cons_of_mem _ hq)) hrest

theorem FreeList.eq_nil {m : Memory} {ps : List Nat} (h : FreeList m 0 ps) : ps = [] := by
  cases ps with
  | nil => rfl
  | cons p ps => exact absurd h.1.symm h.2.1

theorem FreeList.eq_cons {m : Memory} {first : Nat} {ps : List Nat} (h : FreeList m first ps)
    (hne : first ≠ 0) : ∃ ps', ps = first :: ps' ∧ FreeList m (m.read first 8) ps' := by
  cases ps with
  | nil => exact absurd h hne
  | cons p ps =>
      obtain ⟨rfl, -, hrest⟩ := h
      exact ⟨ps, rfl, hrest⟩

/-! ## The invariant -/

/-- What holds as long as all new blocks fit. `free` are the blocks that were given back. -/
structure Inv (s : BufferPool) (free : List Nat) : Prop where
  large : 8 ≤ s.blockSize
  linked : FreeList s.memory s.firstFreeBlock free
  apart : (free ++ s.borrowed).Pairwise fun p q => Apart p s.blockSize q s.blockSize
  inside : ∀ p ∈ free ++ s.borrowed, ∃ b ∈ s.buffers, b ≤ p ∧ p + s.blockSize ≤ b + s.bufferSize
  bounds : ∀ b ∈ s.buffers, b ≠ 0 ∧ b + s.bufferSize ≤ sizeBound
  /-- The blocks that were taken from the first buffer. -/
  taken : ∀ b ∈ s.buffers.head?, ∀ i < s.bufferedBlocks, getBlock b i ∈ free ++ s.borrowed
  /-- The other ones do not reach into it. -/
  others : ∀ b ∈ s.buffers.head?, ∀ p ∈ free ++ s.borrowed,
    (∃ i < s.bufferedBlocks, p = getBlock b i) ∨ Apart p s.blockSize b s.bufferSize
  started : s.bufferedBlocks < growSize → s.buffers ≠ []
  /-- Only with the right block size a buffer is used up. -/
  single : s.blockSize ≠ growSize →
    (s.buffers = [] ∧ s.bufferedBlocks = growSize) ∨
      (s.buffers.length = 1 ∧ s.bufferedBlocks < growSize)

theorem Apart.symm {p n q k : Nat} (h : Apart p n q k) : Apart q k p n := Or.symm h

theorem inv_new {blockSize : Nat} (hlarge : 8 ≤ blockSize) (memory : Memory) :
    Inv (new blockSize memory) [] where
  large := hlarge
  linked := rfl
  apart := .nil
  inside := fun p hp => by cases hp
  bounds := fun b hb => by cases hb
  taken := fun b hb => by cases hb
  others := fun b hb => by cases hb
  started := fun h => absurd h (Nat.lt_irrefl _)
  single := fun _ => .inl ⟨rfl, rfl⟩

namespace Inv

variable {s s' : BufferPool} {free free' : List Nat}

theorem sound (h : Inv s free) : s.Sound where
  inside := fun p hp => h.inside p (List.mem_append_right _ hp)
  apart := (List.pairwise_append.mp h.apart).2.1

theorem block_bounds (h : Inv s free) {p : Nat} (hp : p ∈ free ++ s.borrowed) :
    p ≠ 0 ∧ p < sizeBound := by
  obtain ⟨b, hb, hlo, hhi⟩ := h.inside p hp
  obtain ⟨hne, hmax⟩ := h.bounds b hb
  have hlarge := h.large
  exact ⟨by omega, by omega⟩

/-- A call that hands blocks over, and takes none from a buffer. -/
theorem of_perm (h : Inv s free) (hperm : (free' ++ s'.borrowed).Perm (free ++ s.borrowed))
    (hlinked : FreeList s'.memory s'.firstFreeBlock free') (hsize : s'.blockSize = s.blockSize)
    (hbuffers : s'.buffers = s.buffers) (hbuffered : s'.bufferedBlocks = s.bufferedBlocks) :
    Inv s' free' := by
  have hbytes : s'.bufferSize = s.bufferSize := by rw [bufferSize, bufferSize, hsize]
  refine ⟨?_, hlinked, ?_, ?_, ?_, ?_, ?_, ?_, ?_⟩
  · rw [hsize]
    exact h.large
  · rw [hsize]
    exact (hperm.pairwise_iff fun h => h.symm).mpr h.apart
  · rw [hsize, hbuffers, hbytes]
    exact fun p hp => h.inside p (hperm.mem_iff.mp hp)
  · rw [hbuffers, hbytes]
    exact h.bounds
  · rw [hbuffers, hbuffered]
    exact fun b hb i hi => hperm.mem_iff.mpr (h.taken b hb i hi)
  · rw [hbuffers, hbuffered, hsize, hbytes]
    exact fun b hb p hp => h.others b hb p (hperm.mem_iff.mp hp)
  · rw [hbuffers, hbuffered]
    exact h.started
  · rw [hbuffers, hbuffered, hsize]
    exact h.single

/-- A free block is borrowed. -/
theorem borrow_free (h : Inv s free) (hfree : s.firstFreeBlock ≠ 0) : ∃ free',
    Inv { s with
      firstFreeBlock := s.memory.read s.firstFreeBlock 8
      borrowed := s.firstFreeBlock :: s.borrowed } free' := by
  obtain ⟨free', rfl, hrest⟩ := h.linked.eq_cons hfree
  exact ⟨free', h.of_perm List.perm_middle hrest rfl rfl rfl⟩

theorem giveBack (h : Inv s free) {p : Nat} (hp : p ∈ s.borrowed) :
    ∃ free', Inv (s.giveBack p) free' := by
  obtain ⟨hne, hlt⟩ := h.block_bounds (List.mem_append_right _ hp)
  obtain ⟨-, -, hcross⟩ := List.pairwise_append.mp h.apart
  have hlarge := h.large
  have hkept : ∀ q ∈ free, (s.memory.write p 8 s.firstFreeBlock).read q 8 = s.memory.read q 8 := by
    intro q hq
    have hapart := hcross q hq p hp
    rw [Apart] at hapart
    exact Memory.read_write_of_disjoint (by omega)
  have hfirst : s.firstFreeBlock < sizeBound := by
    by_cases hzero : s.firstFreeBlock = 0
    · rw [hzero]
      decide
    · obtain ⟨rest, rfl, -⟩ := h.linked.eq_cons hzero
      exact (h.block_bounds List.mem_cons_self).2
  have hlink : (s.memory.write p 8 s.firstFreeBlock).read p 8 = s.firstFreeBlock := by
    rw [Memory.read_write]
    exact Nat.mod_eq_of_lt hfirst
  refine ⟨p :: free, h.of_perm ?_ ⟨rfl, hne, ?_⟩ rfl rfl rfl⟩
  · exact (List.perm_middle.symm.trans ((List.perm_cons_erase hp).symm.append_left free))
  · show FreeList _ ((s.memory.write p 8 s.firstFreeBlock).read p 8) free
    rw [hlink]
    exact h.linked.congr hkept

theorem store (h : Inv s free) {addr : Nat} {bytes : List UInt8}
    (hmem : ∃ p ∈ s.borrowed, p ≤ addr ∧ addr + bytes.length ≤ p + s.blockSize) :
    Inv { s with memory := s.memory.writeBytes addr bytes } free := by
  obtain ⟨p, hp, hlo, hhi⟩ := hmem
  obtain ⟨-, -, hcross⟩ := List.pairwise_append.mp h.apart
  have hlarge := h.large
  refine h.of_perm (List.Perm.refl _) (h.linked.congr fun q hq => ?_) rfl rfl rfl
  have hapart := hcross q hq p hp
  rw [Apart] at hapart
  exact Memory.read_congr fun x h₁ h₂ => Memory.writeBytes_outside (by omega)

theorem grow (h : Inv s free) {base : Nat}
    (hnew : s.bufferedBlocks ≥ growSize → base ≠ 0 ∧ base + s.bufferSize ≤ sizeBound ∧
      ∀ b ∈ s.buffers, Apart base s.bufferSize b s.bufferSize) :
    Inv (s.grow base) free ∧ (s.grow base).bufferedBlocks = s.nextIndex ∧
      s.nextIndex < growSize := by
  rw [BufferPool.grow, nextIndex]
  by_cases hfull : s.bufferedBlocks ≥ growSize
  · obtain ⟨hne, hmax, hapart⟩ := hnew hfull
    rw [if_pos hfull, if_pos hfull]
    refine ⟨⟨h.large, h.linked, h.apart, ?_, ?_, ?_, ?_, ?_, ?_⟩, rfl, by decide⟩
    · intro p hp
      obtain ⟨b, hb, hin⟩ := h.inside p hp
      exact ⟨b, List.mem_cons_of_mem _ hb, hin⟩
    · intro b hb
      rcases List.mem_cons.mp hb with rfl | hb
      · exact ⟨hne, hmax⟩
      · exact h.bounds b hb
    · exact fun b _ i hi => absurd hi (Nat.not_lt_zero i)
    · intro b hb p hp
      cases hb
      obtain ⟨b, hb, hlo, hhi⟩ := h.inside p hp
      have hb := hapart b hb
      rw [Apart] at hb
      refine .inr ?_
      show p + s.blockSize ≤ base ∨ base + s.bufferSize ≤ p
      omega
    · exact fun _ => List.cons_ne_nil _ _
    · intro hsize
      rcases h.single hsize with ⟨hnil, -⟩ | ⟨-, hlt⟩
      · refine .inr ⟨?_, show 0 < growSize by decide⟩
        show (base :: s.buffers).length = 1
        rw [hnil]
        rfl
      · omega
  · rw [if_neg hfull, if_neg hfull]
    exact ⟨h, rfl, Nat.lt_of_not_le hfull⟩

/-- A block that fits is taken from the first buffer. -/
theorem take (h : Inv s []) {b : Nat} (hb : s.buffers.head? = some b)
    (hfits : s.bufferedBlocks * growSize + s.blockSize ≤ s.bufferSize)
    (hstride : s.bufferedBlocks = 0 ∨ s.blockSize ≤ growSize) (hk : s.bufferedBlocks < growSize) :
    Inv { s with
      bufferedBlocks := s.bufferedBlocks + 1
      borrowed := getBlock b s.bufferedBlocks :: s.borrowed } [] := by
  have hgrow : growSize = 1024 := rfl
  have hmem : b ∈ s.buffers := List.mem_of_mem_head? hb
  have hapart : ∀ q ∈ s.borrowed,
      Apart (getBlock b s.bufferedBlocks) s.blockSize q s.blockSize := by
    intro q hq
    rcases h.others b hb q hq with ⟨i, hi, rfl⟩ | hq
    · rw [Apart, getBlock, getBlock, hgrow]
      omega
    · rw [Apart] at hq
      rw [Apart, getBlock]
      omega
  refine ⟨h.large, h.linked, List.pairwise_cons.mpr ⟨hapart, h.apart⟩, ?_, h.bounds, ?_, ?_,
    fun _ hnil => ?_, ?_⟩
  · intro p hp
    rcases List.mem_cons.mp hp with rfl | hp
    · refine ⟨b, hmem, Nat.le_add_right _ _, ?_⟩
      show b + s.bufferedBlocks * growSize + s.blockSize ≤ b + s.bufferSize
      omega
    · exact h.inside p hp
  · intro b' hb' i hi
    cases hb.symm.trans hb'
    by_cases hlast : i = s.bufferedBlocks
    · rw [hlast]
      exact List.mem_cons_self
    · exact List.mem_cons_of_mem _ (h.taken b hb i (show i < s.bufferedBlocks by
        have : i < s.bufferedBlocks + 1 := hi
        omega))
  · intro b' hb' p hp
    cases hb.symm.trans hb'
    rcases List.mem_cons.mp hp with rfl | hp
    · exact .inl ⟨s.bufferedBlocks, Nat.lt_succ_self _, rfl⟩
    · rcases h.others b hb p hp with ⟨i, hi, heq⟩ | hp
      · exact .inl ⟨i, Nat.lt_succ_of_lt hi, heq⟩
      · exact .inr hp
  · have hnil : s.buffers = [] := hnil
    rw [hnil] at hmem
    cases hmem
  · intro hsize
    have hbytes : s.bufferSize ≤ growSize * s.blockSize := Nat.mod_le _ _
    have hsize : s.blockSize ≠ growSize := hsize
    rw [hgrow] at hbytes hfits
    rcases h.single hsize with ⟨hnil, -⟩ | ⟨hone, -⟩
    · rw [hnil] at hmem
      cases hmem
    · refine .inr ⟨hone, ?_⟩
      show s.bufferedBlocks + 1 < growSize
      rw [hgrow] at hsize hstride hk ⊢
      omega

/-- A block is taken that leaves the pool sound: it fits. -/
theorem fits_of_take (h : Inv s []) {b : Nat} (hb : s.buffers.head? = some b)
    (hk : s.bufferedBlocks < growSize)
    (hsound : Sound { s with
      bufferedBlocks := s.bufferedBlocks + 1
      borrowed := getBlock b s.bufferedBlocks :: s.borrowed }) :
    s.bufferedBlocks * growSize + s.blockSize ≤ s.bufferSize ∧
      (s.bufferedBlocks = 0 ∨ s.blockSize ≤ growSize) := by
  have hgrow : growSize = 1024 := rfl
  by_cases hsize : s.blockSize = growSize
  · have hbytes : s.bufferSize = 1024 * 1024 := by
      rw [bufferSize, hsize]
      rfl
    refine ⟨?_, .inr hsize.le⟩
    rw [hsize, hbytes, hgrow]
    omega
  · rcases h.single hsize with ⟨hnil, -⟩ | ⟨hone, -⟩
    · rw [hnil] at hb
      cases hb
    · obtain ⟨b', hall⟩ := List.length_eq_one_iff.mp hone
      rw [hall] at hb
      cases hb
      obtain ⟨b', hb', -, hend⟩ := hsound.inside _ List.mem_cons_self
      have hb' : b' ∈ s.buffers := hb'
      rw [hall, List.mem_singleton] at hb'
      subst hb'
      have hend : b' + s.bufferedBlocks * growSize + s.blockSize ≤ b' + s.bufferSize := hend
      refine ⟨by omega, ?_⟩
      by_cases hzero : s.bufferedBlocks = 0
      · exact .inl hzero
      · have htaken := h.taken b' (by rw [hall]; rfl) (s.bufferedBlocks - 1) (by omega)
        have hapart : Apart (getBlock b' s.bufferedBlocks) s.blockSize
            (getBlock b' (s.bufferedBlocks - 1)) s.blockSize :=
          (List.pairwise_cons.mp hsound.apart).1 _ htaken
        rw [Apart, getBlock, getBlock, hgrow] at hapart
        rw [hgrow]
        exact .inr (by omega)

end Inv

/-! ## Steps and runs -/

theorem step_inv {s s' : BufferPool} {c : Call} (hinv : ∃ free, Inv s free) (h : Step s c s') :
    (s'.Sound ↔ s.Fits c) ∧ (s.Fits c → ∃ free, Inv s' free) := by
  obtain ⟨free, hinv⟩ := hinv
  obtain ⟨hstep, hallowed⟩ := h
  have hgood : (∃ free, Inv s' free) → s.Fits c → (s'.Sound ↔ s.Fits c) ∧
      (s.Fits c → ∃ free, Inv s' free) := fun hinv' hfits =>
    ⟨iff_of_true hinv'.choose_spec.sound hfits, fun _ => hinv'⟩
  cases c with
  | giveBack p =>
      cases hstep
      exact hgood (hinv.giveBack hallowed) trivial
  | store addr bytes =>
      cases hstep
      exact hgood ⟨free, hinv.store hallowed⟩ trivial
  | borrow base =>
      obtain ⟨⟨ret, s₁⟩, hborrow, rfl⟩ := Option.map_eq_some_iff.mp hstep
      by_cases hfree : s.firstFreeBlock ≠ 0
      · rw [borrow, if_pos hfree] at hborrow
        cases hborrow
        exact hgood (hinv.borrow_free hfree) fun hzero => absurd hzero hfree
      · have hzero : s.firstFreeBlock = 0 := not_not.mp hfree
        have hlinked := hinv.linked
        rw [hzero] at hlinked
        obtain rfl := hlinked.eq_nil
        obtain ⟨hgrown, hindex, hlt⟩ := hinv.grow (hallowed hzero)
        have hsame : (s.grow base).blockSize = s.blockSize := by
          rw [grow]
          split <;> rfl
        have hbytes : (s.grow base).bufferSize = s.bufferSize := by
          rw [bufferSize, bufferSize, hsame]
        rw [borrow, if_neg hfree] at hborrow
        obtain ⟨b, hb, hborrow⟩ := Option.map_eq_some_iff.mp hborrow
        cases hborrow
        have hfits : s.Fits (.borrow base) ↔
            (s.grow base).bufferedBlocks * growSize + (s.grow base).blockSize ≤
              (s.grow base).bufferSize ∧
            ((s.grow base).bufferedBlocks = 0 ∨ (s.grow base).blockSize ≤ growSize) := by
          rw [Fits, hindex, hsame, hbytes]
          exact ⟨fun h => h hzero, fun h _ => h⟩
        rw [← hindex] at hlt
        have hinv' : s.Fits (.borrow base) → Inv _ [] := fun h =>
          hgrown.take hb (hfits.mp h).1 (hfits.mp h).2 hlt
        exact ⟨⟨fun h => hfits.mpr (hgrown.fits_of_take hb hlt h), fun h => (hinv' h).sound⟩,
          fun h => ⟨[], hinv' h⟩⟩

theorem Step.det {s s₁ s₂ : BufferPool} {c : Call} (h₁ : Step s c s₁) (h₂ : Step s c s₂) :
    s₁ = s₂ :=
  Option.some.inj (h₁.1.symm.trans h₂.1)

section Runs

variable {blockSize : Nat} {memory : Memory}

/-- A run is sound all along exactly if all new blocks in it fit. -/
theorem always_sound_iff (hlarge : 8 ≤ blockSize) {calls : List Call} {s : BufferPool}
    (h : Run Step (new blockSize memory) calls s) :
    (∀ pre s₁, pre <+: calls → Run Step (new blockSize memory) pre s₁ → s₁.Sound) ↔
      Run (fun s c s' => Step s c s' ∧ s.Fits c) (new blockSize memory) calls s :=
  h.always_iff (I := fun s => ∃ free, Inv s free) (fun _ _ _ _ h₁ h₂ => h₁.det h₂)
    ⟨[], inv_new hlarge memory⟩ (inv_new hlarge memory).sound
    fun _ _ _ hinv hs => step_inv hinv hs

theorem blockSize_run {calls : List Call} {s : BufferPool}
    (h : Run Step (new blockSize memory) calls s) : s.blockSize = blockSize := by
  refine h.state_inv (I := fun s => s.blockSize = blockSize) rfl fun s c s' hs hstep => ?_
  obtain ⟨hstep, -⟩ := hstep
  rw [← hs]
  cases c with
  | giveBack p =>
      cases hstep
      rfl
  | store addr bytes =>
      cases hstep
      rfl
  | borrow base =>
      obtain ⟨⟨ret, s₁⟩, hborrow, rfl⟩ := Option.map_eq_some_iff.mp hstep
      rw [borrow] at hborrow
      split at hborrow
      · cases hborrow
        rfl
      · obtain ⟨b, -, hborrow⟩ := Option.map_eq_some_iff.mp hborrow
        cases hborrow
        show (s.grow base).blockSize = s.blockSize
        rw [grow]
        split <;> rfl

/-- With blocks of `growSize` bytes every new one fits. -/
theorem fits_of_blockSize {s : BufferPool} (h : s.blockSize = growSize) (c : Call) : s.Fits c := by
  cases c with
  | giveBack p => trivial
  | store addr bytes => trivial
  | borrow base =>
      have hbytes : s.bufferSize = 1024 * 1024 := by
        rw [bufferSize, h]
        rfl
      have hindex : s.nextIndex < 1024 := by
        rw [nextIndex, growSize]
        split <;> omega
      intro _
      refine ⟨?_, .inr h.le⟩
      rw [hbytes, h, growSize]
      omega

/-- The first blocks of a pool are the ones of its first buffer, in their order. -/
theorem run_borrows (n : Nat) (hn : n < growSize) : ∃ s,
    Run Step (new blockSize memory) (List.replicate (n + 1) (.borrow 1024)) s ∧
      s.firstFreeBlock = 0 ∧ s.buffers = [1024] ∧ s.bufferedBlocks = n + 1 := by
  induction n with
  | zero =>
      refine ⟨_, Run.single ⟨rfl, fun _ _ => ⟨by decide, ?_, fun b hb => by cases hb⟩⟩, rfl,
        rfl, rfl⟩
      show 1024 + growSize * blockSize % sizeBound ≤ sizeBound
      rw [growSize, sizeBound]
      omega
  | succ n ih =>
      obtain ⟨s, hrun, hfree, hbuffers, hcount⟩ := ih (by omega)
      have hgrow : s.grow 1024 = s := by
        rw [grow, if_neg (by omega)]
      have hstep : s.stepFn (.borrow 1024) = some { s with
          bufferedBlocks := s.bufferedBlocks + 1
          borrowed := getBlock 1024 s.bufferedBlocks :: s.borrowed } := by
        have hhead : s.buffers.head? = some 1024 := by
          rw [hbuffers]
          rfl
        rw [stepFn, borrow, if_neg (not_not.mpr hfree), hgrow]
        show (s.buffers.head?.map _).map _ = _
        rw [hhead]
        rfl
      rw [List.replicate_succ']
      refine ⟨_, hrun.snoc ⟨hstep, fun _ hfull => ?_⟩, hfree, hbuffers, ?_⟩
      · omega
      · show s.bufferedBlocks + 1 = n + 1 + 1
        rw [hcount]

/-- The new block with an index fits in every pool if all runs are sound. -/
theorem fits_of_sound (hlarge : 8 ≤ blockSize)
    (hsound : ∀ calls s, Run Step (new blockSize memory) calls s → s.Sound) {n : Nat}
    (hn : n + 1 < growSize) :
    (n + 1) * growSize + blockSize ≤ mulSize growSize blockSize ∧ blockSize ≤ growSize := by
  obtain ⟨s, hrun, hfree, -, hcount⟩ := @run_borrows blockSize memory n (by omega)
  obtain ⟨s', hrun', -⟩ := @run_borrows blockSize memory (n + 1) hn
  have hgood := (always_sound_iff hlarge hrun').mp fun pre s₁ _ h => hsound pre s₁ h
  rw [List.replicate_succ'] at hgood
  obtain ⟨s₁, hgood, -, hfits⟩ := Run.of_snoc hgood
  have hrun₁ : Run Step (new blockSize memory) _ s₁ := hgood.imp fun _ _ _ h => h.1
  obtain rfl : s = s₁ := hrun.det (fun _ _ _ _ h₁ h₂ => h₁.det h₂) hrun₁
  have hindex : s.nextIndex = n + 1 := by
    rw [nextIndex, if_neg (by omega), hcount]
  obtain ⟨hend, hstride⟩ := hfits hfree
  rw [hindex, bufferSize, blockSize_run hrun] at hend
  rw [hindex, blockSize_run hrun] at hstride
  exact ⟨hend, hstride.resolve_left (Nat.succ_ne_zero n)⟩

end Runs

/-- The blocks that are borrowed are sound in all runs of a pool exactly if its blocks have
`growSize` bytes. With other blocks a run is sound all along exactly if all of its new blocks
fit. -/
theorem sound_iff_growSize {blockSize : Nat} (hlarge : 8 ≤ blockSize) :
    ((∀ memory calls s, Run Step (new blockSize memory) calls s → s.Sound) ↔
      blockSize = growSize) ∧
    ∀ memory calls s, Run Step (new blockSize memory) calls s →
      ((∀ pre s₁, pre <+: calls → Run Step (new blockSize memory) pre s₁ → s₁.Sound) ↔
        Run (fun s c s' => Step s c s' ∧ s.Fits c) (new blockSize memory) calls s) := by
  refine ⟨⟨fun hsound => ?_, ?_⟩, fun memory calls s h => always_sound_iff hlarge h⟩
  · have hgrow : growSize = 1024 := rfl
    obtain ⟨hend, hle⟩ := fits_of_sound (n := 1022) hlarge (hsound fun _ => 0) (by decide)
    have hbytes : mulSize growSize blockSize ≤ growSize * blockSize := Nat.mod_le _ _
    rw [hgrow] at hend hle hbytes ⊢
    omega
  · rintro rfl memory calls s h
    have hgood : Run (fun s c s' => Step s c s' ∧ s.Fits c) (new growSize memory) calls s := by
      induction h with
      | nil => exact .nil
      | snoc h hs ih => exact ih.snoc ⟨hs, fits_of_blockSize (blockSize_run h) _⟩
    exact (always_sound_iff hlarge h).mpr hgood calls s (List.prefix_refl _) h

theorem sound_iff_growSize_least :
    (∀ memory calls s, Run Step (new 8 memory) calls s → s.Sound) ↔ 8 = growSize :=
  (sound_iff_growSize (show 8 ≤ 8 by decide)).1

/-- Two blocks of two thousand bytes are half a block apart. -/
theorem large_blocks_overlap : ∃ s,
    Run Step (new 2048 fun _ => 0) [.borrow 1024, .borrow 1024] s ∧ s.borrowed = [2048, 1024] ∧
      ¬ s.Sound := by
  have hfirst : Step (new 2048 fun _ => 0) (.borrow 1024) _ :=
    ⟨rfl, fun _ _ => ⟨by decide, by decide, fun b hb => by cases hb⟩⟩
  refine ⟨_, (Run.single hfirst).snoc ⟨rfl, fun _ hfull => absurd hfull (by decide)⟩, rfl,
    fun hsound => ?_⟩
  have hapart : Apart 2048 2048 1024 2048 :=
    (List.pairwise_cons.mp hsound.apart).1 1024 List.mem_cons_self
  rw [Apart] at hapart
  omega

end BufferPool

end Ccbase.Optimizer
