import Ccbase.Application.DefaultAllocator

/-!
# Runs of `DefaultAllocator`

`Alloc` never marks the block it returns as used, and `Free` never mends the links of
the neighbours it takes in nor the addresses under which `total_block_` has them. So `Free`
may merge a block with one that is in use. As long as each `Free` finds neighbours that are
what it takes them for, the existing blocks stay apart from each other, and those in use
stay out of the set.
-/

namespace Ccbase.Application.DefaultAllocator

open Ccbase.Lib

/-- Blocks do not overlap, are not empty and have their bytes from the regions. -/
structure Apart (unit : Nat) (regions : List Nat) (blocks : Heap Block) : Prop where
  pos : ∀ p b, blocks.get p = some b → 0 < b.size
  disjoint : ∀ p q a b, blocks.get p = some a → blocks.get q = some b → p ≠ q →
    a.addr + a.size ≤ b.addr ∨ b.addr + b.size ≤ a.addr
  covered : ∀ p b, blocks.get p = some b → ∀ x, b.addr ≤ x → x < b.addr + b.size →
    ∃ r ∈ regions, r ≤ x ∧ x < r + unit
  links : ∀ p b, blocks.get p = some b → b.prev ≠ some p ∧ b.next ≠ some p

structure Inv (unit : Nat) (regions : List Nat) (s : DefaultAllocator) : Prop where
  apart : Apart unit regions s.blocks
  sorted : OrdSet.Sorted (blockKey s.blocks) s.freeBlocks
  readable : s.Readable
  space : ∀ r ∈ regions, 0 < r ∧ r + unit ≤ 2 ^ 64

/-- Blocks that are not in the set stay as they are, and so does the set for them. The block
`p` is left out. -/
def Unchanged (s s' : DefaultAllocator) (p : Nat) : Prop :=
  ∀ x b, x ≠ p → s.blocks.get x = some b → x ∉ s.freeBlocks →
    s'.blocks.get x = some b ∧ x ∉ s'.freeBlocks

variable {unit size fresh p q : Nat} {regions : List Nat} {blocks : Heap Block} {a b : Block}
  {s s' : DefaultAllocator}

theorem blockKey_of_get (hb : blocks.get p = some b) :
    blockKey blocks p = toLex (b.size, b.addr) := by
  rw [blockKey, hb]

/-- The key of a block is a matter of its object. -/
theorem blockKey_congr {blocks' : Heap Block} (h : blocks'.get p = blocks.get p) :
    blockKey blocks' p = blockKey blocks p := by
  rw [blockKey, blockKey, h]

theorem emplaceTotal_blocks (s : DefaultAllocator) (addr p : Nat) :
    (s.emplaceTotal addr p).blocks = s.blocks := by
  unfold emplaceTotal
  split <;> rfl

theorem emplaceTotal_freeBlocks (s : DefaultAllocator) (addr p : Nat) :
    (s.emplaceTotal addr p).freeBlocks = s.freeBlocks := by
  unfold emplaceTotal
  split <;> rfl

/-! ## Blocks -/

namespace Apart

/-- A block ends within the address space. -/
theorem end_le (h : Apart unit regions blocks) (hspace : ∀ r ∈ regions, 0 < r ∧ r + unit ≤ 2 ^ 64)
    (hb : blocks.get p = some b) : 0 < b.addr ∧ b.addr + b.size ≤ 2 ^ 64 := by
  have hpos := h.pos p b hb
  obtain ⟨r, hr, hle, -⟩ := h.covered p b hb b.addr (by omega) (by omega)
  obtain ⟨t, ht, -, hlt⟩ := h.covered p b hb (b.addr + b.size - 1) (by omega) (by omega)
  have h₁ := (hspace r hr).1
  have h₂ := (hspace t ht).2
  omega

theorem size_lt (h : Apart unit regions blocks) (hspace : ∀ r ∈ regions, 0 < r ∧ r + unit ≤ 2 ^ 64)
    (hb : blocks.get p = some b) : b.size < 2 ^ 64 := by
  have := h.end_le hspace hb
  omega

/-- The address tells a block. -/
theorem eq_of_addr (h : Apart unit regions blocks) (ha : blocks.get p = some a)
    (hb : blocks.get q = some b) (heq : a.addr = b.addr) : p = q := by
  by_contra hne
  have h₁ := h.disjoint p q a b ha hb hne
  have h₂ := h.pos p a ha
  have h₃ := h.pos q b hb
  omega

/-- A region that is new. -/
theorem region (h : Apart unit regions blocks) (hunit : 0 < unit)
    (hfresh : ∀ r ∈ regions, r + unit ≤ fresh ∨ fresh + unit ≤ r) :
    Apart unit (fresh :: regions) (blocks.new { addr := fresh, size := unit, status := 0 }) := by
  -- an old block has bytes of old regions only
  have hold : ∀ p b, blocks.get p = some b →
      b.addr + b.size ≤ fresh ∨ fresh + unit ≤ b.addr := by
    intro p b hb
    by_contra hcon
    have hpos := h.pos p b hb
    obtain ⟨r, hr, h₁, h₂⟩ := h.covered p b hb (max b.addr fresh) (by omega) (by omega)
    have := hfresh r hr
    omega
  refine ⟨fun p b hb => ?_, fun p q a b ha hb hne => ?_, fun p b hb x h₁ h₂ => ?_,
    fun p b hb => ?_⟩
  · rw [Heap.get_new] at hb
    split at hb
    · cases hb
      exact hunit
    · exact h.pos p b hb
  · rw [Heap.get_new] at ha hb
    split at ha
    · rename_i hp
      cases ha
      rw [if_neg fun hq => hne (hp.trans hq.symm)] at hb
      have := hold q b hb
      dsimp only
      omega
    · split at hb
      · cases hb
        exact hold p a ha
      · exact h.disjoint p q a b ha hb hne
  · rw [Heap.get_new] at hb
    split at hb
    · cases hb
      exact ⟨fresh, List.mem_cons_self, h₁, h₂⟩
    · obtain ⟨r, hr, hx⟩ := h.covered p b hb x h₁ h₂
      exact ⟨r, List.mem_cons_of_mem _ hr, hx⟩
  · rw [Heap.get_new] at hb
    split at hb
    · cases hb
      exact ⟨nofun, nofun⟩
    · exact h.links p b hb

section Edit

variable {blocks' : Heap Block} {b' : Block}

/-- A block whose range and links stay. -/
theorem congr (h : Apart unit regions blocks) (hp : blocks.get p = some b)
    (hp' : blocks'.get p = some b') (haddr : b'.addr = b.addr) (hsize : b'.size = b.size)
    (hprev : b'.prev = b.prev) (hnext : b'.next = b.next)
    (hother : ∀ x, x ≠ p → blocks'.get x = blocks.get x) : Apart unit regions blocks' := by
  have hold : ∀ x c, blocks'.get x = some c → ∃ d, blocks.get x = some d ∧ c.addr = d.addr ∧
      c.size = d.size ∧ c.prev = d.prev ∧ c.next = d.next := by
    intro x c hc
    by_cases hx : x = p
    · subst hx
      rw [hp'] at hc
      cases hc
      exact ⟨b, hp, haddr, hsize, hprev, hnext⟩
    · rw [hother x hx] at hc
      exact ⟨c, hc, rfl, rfl, rfl, rfl⟩
  refine ⟨fun x c hc => ?_, fun x y c d hc hd hne => ?_, fun x c hc => ?_, fun x c hc => ?_⟩
  · obtain ⟨c', hc', -, hsize, -⟩ := hold x c hc
    exact hsize ▸ h.pos x c' hc'
  · obtain ⟨c', hc', h₁, h₂, -⟩ := hold x c hc
    obtain ⟨d', hd', h₃, h₄, -⟩ := hold y d hd
    rw [h₁, h₂, h₃, h₄]
    exact h.disjoint x y c' d' hc' hd' hne
  · obtain ⟨c', hc', h₁, h₂, -⟩ := hold x c hc
    rw [h₁, h₂]
    exact h.covered x c' hc'
  · obtain ⟨c', hc', -, -, h₁, h₂⟩ := hold x c hc
    rw [h₁, h₂]
    exact h.links x c' hc'

/-- The end of a block becomes a block of its own. -/
theorem split {r : Nat} {rest : Block} (h : Apart unit regions blocks)
    (hp : blocks.get p = some b) (hr : blocks.get r = none)
    (hp' : blocks'.get p = some b') (hr' : blocks'.get r = some rest)
    (hother : ∀ x, x ≠ p → x ≠ r → blocks'.get x = blocks.get x)
    (haddr : b'.addr = b.addr) (hrest : rest.addr = b.addr + b'.size) (hpos : 0 < b'.size)
    (hposRest : 0 < rest.size) (hsize : b'.size + rest.size = b.size)
    (hlinks : b'.prev ≠ some p ∧ b'.next ≠ some p)
    (hlinksRest : rest.prev ≠ some r ∧ rest.next ≠ some r) : Apart unit regions blocks' := by
  have hrp : r ≠ p := by
    rintro rfl
    rw [hr] at hp
    cases hp
  -- every block is within an old one, and only the two parts are within the same one
  have hwithin : ∀ x c, blocks'.get x = some c → ∃ y d, blocks.get y = some d ∧ d.addr ≤ c.addr ∧
      c.addr + c.size ≤ d.addr + d.size ∧ (x = p ∧ y = p ∧ c = b' ∨ x = r ∧ y = p ∧ c = rest ∨
        x ≠ p ∧ x ≠ r ∧ y = x ∧ c = d) := by
    intro x c hc
    by_cases hxp : x = p
    · subst hxp
      rw [hp'] at hc
      cases hc
      exact ⟨x, b, hp, by omega, by omega, Or.inl ⟨rfl, rfl, rfl⟩⟩
    · by_cases hxr : x = r
      · subst hxr
        rw [hr'] at hc
        cases hc
        exact ⟨p, b, hp, by omega, by omega, Or.inr (Or.inl ⟨rfl, rfl, rfl⟩)⟩
      · rw [hother x hxp hxr] at hc
        exact ⟨x, c, hc, le_rfl, le_rfl, Or.inr (Or.inr ⟨hxp, hxr, rfl, rfl⟩)⟩
  refine ⟨fun x c hc => ?_, fun x y c d hc hd hne => ?_, fun x c hc z h₁ h₂ => ?_,
    fun x c hc => ?_⟩
  · obtain ⟨y, d, hd, -, -, ⟨-, -, rfl⟩ | ⟨-, -, rfl⟩ | ⟨-, -, -, rfl⟩⟩ := hwithin x c hc
    · exact hpos
    · exact hposRest
    · exact h.pos y c hd
  · obtain ⟨x', c', hc', h₁, h₂, hx⟩ := hwithin x c hc
    obtain ⟨y', d', hd', h₃, h₄, hy⟩ := hwithin y d hd
    by_cases hsame : x' = y'
    · rcases hx with ⟨rfl, rfl, rfl⟩ | ⟨rfl, rfl, rfl⟩ | ⟨hxp, -, rfl, rfl⟩
      · rcases hy with ⟨rfl, -, rfl⟩ | ⟨rfl, -, rfl⟩ | ⟨hyp, -, rfl, rfl⟩
        · exact absurd rfl hne
        · omega
        · exact absurd hsame.symm hyp
      · rcases hy with ⟨rfl, -, rfl⟩ | ⟨rfl, -, rfl⟩ | ⟨hyp, -, rfl, rfl⟩
        · omega
        · exact absurd rfl hne
        · exact absurd hsame.symm hyp
      · rcases hy with ⟨rfl, rfl, rfl⟩ | ⟨rfl, rfl, rfl⟩ | ⟨-, -, rfl, rfl⟩
        · exact absurd hsame hxp
        · exact absurd hsame hxp
        · exact absurd hsame hne
    · have := h.disjoint x' y' c' d' hc' hd' hsame
      omega
  · obtain ⟨y, d, hd, h₃, h₄, -⟩ := hwithin x c hc
    exact h.covered y d hd z (by omega) (by omega)
  · obtain ⟨y, d, hd, -, -, ⟨rfl, -, rfl⟩ | ⟨rfl, -, rfl⟩ | ⟨-, -, rfl, rfl⟩⟩ := hwithin x c hc
    · exact hlinks
    · exact hlinksRest
    · exact h.links y c hd

/-- Two blocks next to each other become one. -/
theorem merge {d : Block} (h : Apart unit regions blocks) (hp : blocks.get p = some b)
    (hq : blocks.get q = some d) (hne : p ≠ q) (hp' : blocks'.get p = some b')
    (hq' : blocks'.get q = none) (hother : ∀ x, x ≠ p → x ≠ q → blocks'.get x = blocks.get x)
    (hjoin : d.addr + d.size = b.addr ∧ b'.addr = d.addr ∨
      b.addr + b.size = d.addr ∧ b'.addr = b.addr)
    (hsize : b'.size = b.size + d.size) (hprev : b'.prev = b.prev) (hnext : b'.next = b.next) :
    Apart unit regions blocks' := by
  have hcases : ∀ x c, blocks'.get x = some c → x = p ∧ c = b' ∨
      x ≠ p ∧ x ≠ q ∧ blocks.get x = some c := by
    intro x c hc
    by_cases hxp : x = p
    · subst hxp
      rw [hp'] at hc
      cases hc
      exact Or.inl ⟨rfl, rfl⟩
    · by_cases hxq : x = q
      · subst hxq
        rw [hq'] at hc
        cases hc
      · rw [hother x hxp hxq] at hc
        exact Or.inr ⟨hxp, hxq, hc⟩
  have hposp := h.pos p b hp
  have hbeside : ∀ x c, x ≠ p → x ≠ q → blocks.get x = some c →
      b'.addr + b'.size ≤ c.addr ∨ c.addr + c.size ≤ b'.addr := by
    intro x c hxp hxq hc
    have h₁ := h.disjoint x p c b hc hp hxp
    have h₂ := h.disjoint x q c d hc hq hxq
    have h₃ := h.pos x c hc
    omega
  refine ⟨fun x c hc => ?_, fun x y c e hc he hxy => ?_, fun x c hc z h₁ h₂ => ?_,
    fun x c hc => ?_⟩
  · rcases hcases x c hc with ⟨rfl, rfl⟩ | ⟨-, -, hc⟩
    · omega
    · exact h.pos x c hc
  · rcases hcases x c hc with ⟨rfl, rfl⟩ | ⟨hxp, hxq, hc⟩
    · rcases hcases y e he with ⟨rfl, rfl⟩ | ⟨hyp, hyq, he⟩
      · exact absurd rfl hxy
      · exact hbeside y e hyp hyq he
    · rcases hcases y e he with ⟨rfl, rfl⟩ | ⟨hyp, hyq, he⟩
      · exact (hbeside x c hxp hxq hc).symm
      · exact h.disjoint x y c e hc he hxy
  · rcases hcases x c hc with ⟨rfl, rfl⟩ | ⟨-, -, hc⟩
    · by_cases hz : b.addr ≤ z ∧ z < b.addr + b.size
      · exact h.covered x b hp z hz.1 hz.2
      · exact h.covered q d hq z (by omega) (by omega)
    · exact h.covered x c hc z h₁ h₂
  · rcases hcases x c hc with ⟨rfl, rfl⟩ | ⟨-, -, hc⟩
    · rw [hprev, hnext]
      exact h.links x b hp
    · exact h.links x c hc

end Edit

end Apart

/-! ## `Alloc` -/

theorem Unchanged.trans {s₁ s₂ : DefaultAllocator} (h : Unchanged s s₁ p)
    (h' : Unchanged s₁ s₂ p) : Unchanged s s₂ p := by
  intro x b hx hb hfree
  obtain ⟨hb₁, hfree₁⟩ := h x b hx hb hfree
  exact h' x b hx hb₁ hfree₁

theorem sorted_congr {blocks' : Heap Block} {ps : List Nat}
    (h : OrdSet.Sorted (blockKey blocks) ps) (heq : ∀ x ∈ ps, blocks'.get x = blocks.get x) :
    OrdSet.Sorted (blockKey blocks') ps :=
  h.congr fun x hx => blockKey_congr (heq x hx)

theorem Inv.exists_get (h : Inv unit regions s) (hp : p ∈ s.freeBlocks) :
    ∃ b, s.blocks.get p = some b :=
  Option.isSome_iff_exists.mp (h.readable p hp)

theorem Inv.next_notMem (h : Inv unit regions s) : s.blocks.next ∉ s.freeBlocks := by
  intro hmem
  obtain ⟨b, hb⟩ := h.exists_get hmem
  exact Heap.ne_next hb rfl

/-- The regions after a call of `Alloc`. -/
def grown (s : DefaultAllocator) (regions : List Nat) (size fresh : Nat) : List Nat :=
  match s.lowerBound size with
  | none => fresh :: regions
  | some _ => regions

/-- What `MemAlloc` is assumed to return: a region of the address space that is new. -/
def Fresh (unit : Nat) (s : DefaultAllocator) (regions : List Nat) (size fresh : Nat) : Prop :=
  s.lowerBound size = none → 0 < fresh ∧ fresh + unit ≤ 2 ^ 64 ∧
    ∀ r ∈ regions, r + unit ≤ fresh ∨ fresh + unit ≤ r

theorem takeBlock_spec (h : Inv unit regions s) (hpos : 0 < size) (hunit : size ≤ unit)
    (hfresh : Fresh unit s regions size fresh) :
    ∃ p s' b, s.takeBlock unit size fresh = (p, s') ∧
      Inv unit (s.grown regions size fresh) s' ∧ s'.blocks.get p = some b ∧ size ≤ b.size ∧
      p ∉ s'.freeBlocks ∧ (s.blocks.get p = none ∨ p ∈ s.freeBlocks) ∧ Unchanged s s' p := by
  cases hlower : s.lowerBound size with
  | none =>
      obtain ⟨hzero, hend, hapart⟩ := hfresh hlower
      have hsame : ∀ x ∈ s.freeBlocks,
          (s.blocks.new { addr := fresh, size := unit, status := 0 }).get x = s.blocks.get x := by
        intro x hx
        rw [Heap.get_new, if_neg]
        rintro rfl
        exact h.next_notMem hx
      refine ⟨s.blocks.next, _, { addr := fresh, size := unit, status := 0 },
        by rw [takeBlock, hlower], ⟨?_, ?_, ?_, ?_⟩, ?_, hunit, ?_, Or.inl s.blocks.get_next, ?_⟩
      · rw [emplaceTotal_blocks, grown, hlower]
        exact h.apart.region (by omega) hapart
      · rw [emplaceTotal_blocks, emplaceTotal_freeBlocks]
        exact sorted_congr h.sorted hsame
      · intro x hx
        rw [emplaceTotal_freeBlocks] at hx
        rw [emplaceTotal_blocks, hsame x hx]
        exact h.readable x hx
      · rw [grown, hlower]
        intro r hr
        rcases List.mem_cons.mp hr with rfl | hr
        · exact ⟨hzero, hend⟩
        · exact h.space r hr
      · rw [emplaceTotal_blocks]
        exact Heap.get_new_self ..
      · rw [emplaceTotal_freeBlocks]
        exact h.next_notMem
      · intro x b hx hb hfree
        rw [emplaceTotal_blocks, emplaceTotal_freeBlocks]
        refine ⟨?_, hfree⟩
        rw [Heap.get_new, if_neg hx]
        exact hb
  | some p =>
      obtain ⟨hp, hle⟩ := OrdSet.lowerBound_some hlower
      obtain ⟨b, hb⟩ := h.exists_get hp
      rw [blockKey_of_get hb, Prod.Lex.toLex_le_toLex] at hle
      have hnodup := OrdSet.Sorted.nodup h.sorted
      refine ⟨p, { s with freeBlocks := s.freeBlocks.erase p }, b, by rw [takeBlock, hlower],
        ?_, hb,
        by dsimp only at hle; omega, hnodup.not_mem_erase, Or.inr hp,
          fun x d _ hd hfree => ⟨hd, fun hmem => ?_⟩⟩
      · rw [grown, hlower]
        exact ⟨h.apart, h.sorted.sublist List.erase_sublist,
          fun x hx => h.readable x (List.mem_of_mem_erase hx), h.space⟩
      · exact hfree (List.mem_of_mem_erase hmem)

theorem splitBlock_spec (h : Inv unit regions s) (hpos : 0 < size) (hb : s.blocks.get p = some b)
    (hle : size ≤ b.size) (hfree : p ∉ s.freeBlocks) :
    ∃ s' b', s.splitBlock p size = some (b.addr, s') ∧ Inv unit regions s' ∧
      s'.blocks.get p = some b' ∧ b'.addr = b.addr ∧ size ≤ b'.size ∧ p ∉ s'.freeBlocks ∧
      Unchanged s s' p := by
  have hsub : subSize b.size size = b.size - size :=
    subSize_eq (h.apart.size_lt h.space hb) hle
  by_cases hsplit : minSplitSize ≤ b.size - size
  · -- the rest is large enough to be a block of its own
    have hsizes : 0 < b.size - size := by
      rw [minSplitSize] at hsplit
      omega
    have hnext : p ≠ s.blocks.next := Heap.ne_next hb
    obtain ⟨rest, hrest⟩ : ∃ rest : Block,
        rest = { addr := b.addr + size, size := b.size - size, status := 1, prev := some p } :=
      ⟨_, rfl⟩
    obtain ⟨s', hs'⟩ : ∃ s', s.splitBlock p size = some (b.addr, s') := by
      rw [splitBlock, hb, Option.map_some]
      dsimp only
      rw [hsub, if_pos hsplit]
      exact ⟨_, rfl⟩
    have hfields : s'.blocks = ((s.blocks.new rest).modify p
          fun b => { b with next := some s.blocks.next }).modify p
          (fun b => { b with size := size }) ∧
        s'.freeBlocks = OrdSet.emplace (blockKey ((s.blocks.new rest).modify p
          fun b => { b with next := some s.blocks.next })) s.blocks.next s.freeBlocks := by
      rw [splitBlock, hb, Option.map_some] at hs'
      dsimp only at hs'
      rw [hsub, if_pos hsplit, ← hrest] at hs'
      cases hs'
      rw [emplaceTotal_blocks, emplaceTotal_freeBlocks]
      exact ⟨rfl, rfl⟩
    obtain ⟨hblocks, hset⟩ := hfields
    have hp' : s'.blocks.get p = some { b with next := some s.blocks.next, size := size } := by
      rw [hblocks, Heap.get_modify_self, Heap.get_modify_self, Heap.get_new, if_neg hnext, hb]
      rfl
    have hr' : s'.blocks.get s.blocks.next = some rest := by
      rw [hblocks, Heap.get_modify_ne _ _ hnext.symm, Heap.get_modify_ne _ _ hnext.symm]
      exact Heap.get_new_self ..
    have hother : ∀ x, x ≠ p → x ≠ s.blocks.next → s'.blocks.get x = s.blocks.get x := by
      intro x hxp hxr
      rw [hblocks, Heap.get_modify_ne _ _ hxp, Heap.get_modify_ne _ _ hxp, Heap.get_new,
        if_neg hxr]
    have hmem : ∀ x ∈ s'.freeBlocks, x = s.blocks.next ∨ x ∈ s.freeBlocks := by
      intro x hx
      rw [hset] at hx
      exact OrdSet.mem_emplace hx
    have hnotMem : ∀ x ∈ s.freeBlocks, x ≠ p ∧ x ≠ s.blocks.next := by
      intro x hx
      refine ⟨?_, ?_⟩
      · rintro rfl
        exact hfree hx
      · rintro rfl
        exact h.next_notMem hx
    have hpfree : p ∉ s'.freeBlocks := by
      intro hp
      rcases hmem p hp with heq | hp
      · exact hnext heq
      · exact hfree hp
    -- the key of the new block is read when `size` of `p` is still the old one
    have hmiddle : ∀ x, x ≠ p → s'.blocks.get x = ((s.blocks.new rest).modify p
        fun b => { b with next := some s.blocks.next }).get x := by
      intro x hx
      rw [hblocks, Heap.get_modify_ne _ _ hx]
    refine ⟨s', _, hs', ⟨?_, ?_, ?_, h.space⟩, hp', rfl, le_rfl, hpfree, ?_⟩
    · subst hrest
      refine h.apart.split hb s.blocks.get_next hp' hr' hother rfl rfl hpos hsizes ?_ ?_ ?_
      · dsimp only
        omega
      · exact ⟨(h.apart.links p b hb).1, fun heq => hnext (Option.some.inj heq).symm⟩
      · exact ⟨fun heq => hnext (Option.some.inj heq), nofun⟩
    · refine @sorted_congr ((s.blocks.new rest).modify p
        fun b => { b with next := some s.blocks.next }) _ _ ?_ ?_
      · rw [hset]
        refine OrdSet.sorted_emplace (sorted_congr h.sorted fun x hx => ?_)
        obtain ⟨hxp, hxr⟩ := hnotMem x hx
        rw [← hmiddle x hxp, hother x hxp hxr]
      · intro x hx
        refine hmiddle x ?_
        rintro rfl
        exact hpfree hx
    · intro x hx
      rcases hmem x hx with rfl | hx
      · rw [hr']
        rfl
      · obtain ⟨hxp, hxr⟩ := hnotMem x hx
        rw [hother x hxp hxr]
        exact h.readable x hx
    · intro x d hx hd hxfree
      have hxr : x ≠ s.blocks.next := Heap.ne_next hd
      refine ⟨by rw [hother x hx hxr, hd], fun hmem' => ?_⟩
      rcases hmem x hmem' with heq | hmem'
      · exact hxr heq
      · exact hxfree hmem'
  · -- the block is handed out whole
    refine ⟨s, b, ?_, h, hb, rfl, hle, hfree, fun x d _ hd hxfree => ⟨hd, hxfree⟩⟩
    rw [splitBlock, hb, Option.map_some]
    dsimp only
    rw [hsub, if_neg hsplit]

/-! ## `Free` -/

/-- A link is null, or leads to a block that is not marked free, or to one of the set that is
where `adjoins` says. -/
def LinkOk (s : DefaultAllocator) (link : Option Nat) (adjoins : Block → Prop) : Prop :=
  ∀ q, link = some q → ∃ d, s.blocks.get q = some d ∧
    (d.status ≠ 0 ∨ q ∈ s.freeBlocks ∧ adjoins d)

/-- A neighbour of the set is taken in. -/
theorem Inv.join {d : Block} {f : Block → Block} (h : Inv unit regions s)
    (hb : s.blocks.get p = some b) (hfree : p ∉ s.freeBlocks) (hq : q ∈ s.freeBlocks)
    (hd : s.blocks.get q = some d)
    (hjoin : d.addr + d.size = b.addr ∧ (f b).addr = d.addr ∨
      b.addr + b.size = d.addr ∧ (f b).addr = b.addr)
    (hsize : (f b).size = b.size + d.size) (hprev : (f b).prev = b.prev)
    (hnext : (f b).next = b.next)
    (hs' : s' = { s.drop q d with blocks := (s.drop q d).blocks.modify p f }) :
    Inv unit regions s' ∧ s'.blocks.get p = some (f b) ∧ p ∉ s'.freeBlocks ∧ Unchanged s s' p ∧
      ∀ x e, x ≠ p → s.blocks.get x = some e → x ≠ q →
        s'.blocks.get x = some e ∧ (x ∈ s.freeBlocks → x ∈ s'.freeBlocks) := by
  have hne : p ≠ q := by
    rintro rfl
    exact hfree hq
  have hp' : s'.blocks.get p = some (f b) := by
    rw [hs']
    show ((s.blocks.delete q).modify p f).get p = some (f b)
    rw [Heap.get_modify_self, Heap.get_delete_ne _ hne, hb, Option.map_some]
  have hq' : s'.blocks.get q = none := by
    rw [hs']
    show ((s.blocks.delete q).modify p f).get q = none
    rw [Heap.get_modify_ne _ _ hne.symm, Heap.get_delete_self]
  have hother : ∀ x, x ≠ p → x ≠ q → s'.blocks.get x = s.blocks.get x := by
    intro x hxp hxq
    rw [hs']
    show ((s.blocks.delete q).modify p f).get x = _
    rw [Heap.get_modify_ne _ _ hxp, Heap.get_delete_ne _ hxq]
  have hset : s'.freeBlocks = OrdSet.erase (blockKey s.blocks) (blockKey s.blocks q)
      s.freeBlocks := by
    rw [hs', blockKey_of_get hd]
    rfl
  have hmem : ∀ x ∈ s'.freeBlocks, x ∈ s.freeBlocks ∧ x ≠ p ∧ x ≠ q := by
    intro x hx
    rw [hset] at hx
    have hxs := OrdSet.mem_of_mem_erase hx
    refine ⟨hxs, ?_, ?_⟩
    · rintro rfl
      exact hfree hxs
    · rintro rfl
      exact OrdSet.key_ne_of_mem_erase h.sorted hx rfl
  refine ⟨⟨h.apart.merge hb hd hne hp' hq' hother hjoin hsize hprev hnext, ?_, ?_, h.space⟩, hp',
    fun hp => (hmem p hp).2.1 rfl, fun x e hx he hxfree => ?_, fun x e hx he hxq => ⟨?_, ?_⟩⟩
  · refine @sorted_congr s.blocks _ _ ?_ fun x hx =>
      hother x (hmem x hx).2.1 (hmem x hx).2.2
    rw [hset]
    exact OrdSet.sorted_erase h.sorted
  · intro x hx
    obtain ⟨hxs, hxp, hxq⟩ := hmem x hx
    rw [hother x hxp hxq]
    exact h.readable x hxs
  · have hxq : x ≠ q := by
      rintro rfl
      exact hxfree hq
    rw [hother x hx hxq]
    exact ⟨he, fun hx => hxfree (hmem x hx).1⟩
  · rw [hother x hx hxq]
    exact he
  · intro hxs
    rw [hset]
    refine OrdSet.mem_erase_of_ne hxs fun hkey => hxq ?_
    exact OrdSet.eq_of_key_eq h.sorted hxs hq hkey

theorem mergePrev_spec (h : Inv unit regions s) (hb : s.blocks.get p = some b)
    (hfree : p ∉ s.freeBlocks) (hlink : LinkOk s b.prev fun d => d.addr + d.size = b.addr) :
    ∃ s' b', s.mergePrev p = some s' ∧ Inv unit regions s' ∧ s'.blocks.get p = some b' ∧
      p ∉ s'.freeBlocks ∧ Unchanged s s' p ∧ b'.next = b.next ∧
      b'.addr + b'.size = b.addr + b.size ∧
      ∀ x e, x ≠ p → s.blocks.get x = some e → e.status ≠ 0 ∨ b.addr ≤ e.addr →
        s'.blocks.get x = some e ∧ (x ∈ s.freeBlocks → x ∈ s'.freeBlocks) := by
  have hkeep : s.mergePrev p = some s → ∃ s' b', s.mergePrev p = some s' ∧ Inv unit regions s' ∧
      s'.blocks.get p = some b' ∧ p ∉ s'.freeBlocks ∧ Unchanged s s' p ∧ b'.next = b.next ∧
      b'.addr + b'.size = b.addr + b.size ∧
      ∀ x e, x ≠ p → s.blocks.get x = some e → e.status ≠ 0 ∨ b.addr ≤ e.addr →
        s'.blocks.get x = some e ∧ (x ∈ s.freeBlocks → x ∈ s'.freeBlocks) := fun hsame =>
    ⟨s, b, hsame, h, hb, hfree, fun x e _ he hx => ⟨he, hx⟩, rfl, rfl,
      fun x e _ he _ => ⟨he, id⟩⟩
  cases hprev : b.prev with
  | none =>
      refine hkeep ?_
      rw [mergePrev, hb, Option.bind_some, hprev]
  | some q =>
      obtain ⟨d, hd, hstatus | ⟨hq, hadjoins⟩⟩ := hlink q hprev
      · refine hkeep ?_
        rw [mergePrev, hb, Option.bind_some, hprev]
        dsimp only
        rw [hd, Option.bind_some, if_pos hstatus]
      · by_cases hstatus : d.status = 0
        · have hpos := h.apart.pos q d hd
          have hend := h.apart.end_le h.space hb
          have hstart := h.apart.end_le h.space hd
          obtain ⟨hinv, hp', hfree', hunchanged, hothers⟩ := h.join
            (f := fun b => { b with addr := d.addr, size := addSize b.size d.size }) hb hfree hq hd
            (Or.inl ⟨hadjoins, rfl⟩) (addSize_eq (by rw [sizeBound]; omega)) rfl rfl rfl
          refine ⟨_, _, ?_, hinv, hp', hfree', hunchanged, rfl, ?_, fun x e hx he hor => ?_⟩
          · rw [mergePrev, hb, Option.bind_some, hprev]
            dsimp only
            rw [hd, Option.bind_some, if_neg (not_not.mpr hstatus), if_pos h.readable]
          · dsimp only
            rw [addSize_eq (by rw [sizeBound]; omega)]
            omega
          · refine hothers x e hx he ?_
            rintro rfl
            rw [hd] at he
            cases he
            omega
        · refine hkeep ?_
          rw [mergePrev, hb, Option.bind_some, hprev]
          dsimp only
          rw [hd, Option.bind_some, if_pos hstatus]

theorem mergeNext_spec (h : Inv unit regions s) (hb : s.blocks.get p = some b)
    (hfree : p ∉ s.freeBlocks) (hlink : LinkOk s b.next fun d => d.addr = b.addr + b.size) :
    ∃ s' b', s.mergeNext p = some s' ∧ Inv unit regions s' ∧ s'.blocks.get p = some b' ∧
      p ∉ s'.freeBlocks ∧ Unchanged s s' p := by
  have hkeep : s.mergeNext p = some s → ∃ s' b', s.mergeNext p = some s' ∧ Inv unit regions s' ∧
      s'.blocks.get p = some b' ∧ p ∉ s'.freeBlocks ∧ Unchanged s s' p := fun hsame =>
    ⟨s, b, hsame, h, hb, hfree, fun x e _ he hx => ⟨he, hx⟩⟩
  cases hnext : b.next with
  | none =>
      refine hkeep ?_
      rw [mergeNext, hb, Option.bind_some, hnext]
  | some q =>
      obtain ⟨d, hd, hstatus | ⟨hq, hadjoins⟩⟩ := hlink q hnext
      · refine hkeep ?_
        rw [mergeNext, hb, Option.bind_some, hnext]
        dsimp only
        rw [hd, Option.bind_some, if_pos hstatus]
      · by_cases hstatus : d.status = 0
        · have hend := h.apart.end_le h.space hd
          have hstart := h.apart.end_le h.space hb
          obtain ⟨hinv, hp', hfree', hunchanged, -⟩ := h.join
            (f := fun b => { b with size := addSize b.size d.size }) hb hfree hq hd
            (Or.inr ⟨hadjoins.symm, rfl⟩) (addSize_eq (by rw [sizeBound]; omega)) rfl rfl rfl
          refine ⟨_, _, ?_, hinv, hp', hfree', hunchanged⟩
          rw [mergeNext, hb, Option.bind_some, hnext]
          dsimp only
          rw [hd, Option.bind_some, if_neg (not_not.mpr hstatus), if_pos h.readable]
        · refine hkeep ?_
          rw [mergeNext, hb, Option.bind_some, hnext]
          dsimp only
          rw [hd, Option.bind_some, if_pos hstatus]

/-- `Free` of a block that is not in the set. -/
theorem free_spec (h : Inv unit regions s) {addr : Nat} (htotal : s.totalBlock addr = some p)
    (hb : s.blocks.get p = some b) (hfree : p ∉ s.freeBlocks)
    (hprev : LinkOk s b.prev fun d => d.addr + d.size = b.addr)
    (hnext : LinkOk s b.next fun d => d.addr = b.addr + b.size) :
    ∃ s', s.free addr = some (true, s') ∧ Inv unit regions s' ∧ Unchanged s s' p := by
  obtain ⟨s₀, hs₀⟩ : ∃ s₀ : DefaultAllocator,
      s₀ = { s with blocks := s.blocks.modify p fun b => { b with status := 0 } } := ⟨_, rfl⟩
  have hp₀ : s₀.blocks.get p = some { b with status := 0 } := by
    rw [hs₀]
    show (s.blocks.modify p _).get p = _
    rw [Heap.get_modify_self, hb]
    rfl
  have hother : ∀ x, x ≠ p → s₀.blocks.get x = s.blocks.get x := by
    intro x hx
    rw [hs₀]
    exact Heap.get_modify_ne _ _ hx
  have hset : s₀.freeBlocks = s.freeBlocks := by rw [hs₀]
  have hne : ∀ x ∈ s.freeBlocks, x ≠ p := by
    rintro x hx rfl
    exact hfree hx
  have h₀ : Inv unit regions s₀ := by
    refine ⟨h.apart.congr hb hp₀ rfl rfl rfl rfl hother, ?_, fun x hx => ?_, h.space⟩
    · rw [hset]
      exact sorted_congr h.sorted fun x hx => hother x (hne x hx)
    · rw [hset] at hx
      rw [hother x (hne x hx)]
      exact h.readable x hx
  have hlink₀ : ∀ {link adjoins}, LinkOk s link adjoins → link ≠ some p →
      LinkOk s₀ link adjoins := by
    intro link adjoins hlink hself q hq
    obtain ⟨d, hd, hor⟩ := hlink q hq
    refine ⟨d, ?_, hset.symm ▸ hor⟩
    rw [hother q fun heq => hself (heq ▸ hq), hd]
  obtain ⟨hselfPrev, hselfNext⟩ := h.apart.links p b hb
  obtain ⟨s₁, b₁, hmerge₁, h₁, hp₁, hfree₁, hunchanged₁, hnext₁, hend₁, hkeep₁⟩ :=
    mergePrev_spec h₀ hp₀ (hset.symm ▸ hfree) (hlink₀ hprev hselfPrev)
  have hlink₁ : LinkOk s₁ b₁.next fun d => d.addr = b₁.addr + b₁.size := by
    intro q hq
    rw [hnext₁] at hq
    obtain ⟨d, hd, hor⟩ := hlink₀ hnext hselfNext q hq
    have hqp : q ≠ p := fun heq => hselfNext (heq ▸ hq)
    rcases hor with hstatus | ⟨hmem, hadjoins⟩
    · exact ⟨d, (hkeep₁ q d hqp hd (Or.inl hstatus)).1, Or.inl hstatus⟩
    · obtain ⟨hd₁, hmem₁⟩ := hkeep₁ q d hqp hd (Or.inr (by dsimp only; omega))
      exact ⟨d, hd₁, Or.inr ⟨hmem₁ hmem, by dsimp only at hend₁; omega⟩⟩
  obtain ⟨s₂, b₂, hmerge₂, h₂, hp₂, hfree₂, hunchanged₂⟩ := mergeNext_spec h₁ hp₁ hfree₁ hlink₁
  refine ⟨{ s₂ with freeBlocks := OrdSet.emplace (blockKey s₂.blocks) p s₂.freeBlocks }, ?_,
    ⟨h₂.apart, OrdSet.sorted_emplace h₂.sorted, fun x hx => ?_, h.space⟩, ?_⟩
  · rw [DefaultAllocator.free, htotal]
    dsimp only
    rw [hb, Option.bind_some, ← hs₀, hmerge₁, Option.bind_some, hmerge₂, Option.bind_some,
      insertFree, if_pos h₂.readable, Option.map_some]
  · rcases OrdSet.mem_emplace hx with rfl | hx
    · rw [hp₂]
      rfl
    · exact h₂.readable x hx
  · intro x e hx he hxfree
    have hmid := (hunchanged₁.trans hunchanged₂) x e hx (by rw [hother x hx, he])
      (hset.symm ▸ hxfree)
    refine ⟨hmid.1, fun hmem => ?_⟩
    rcases OrdSet.mem_emplace hmem with heq | hmem
    · exact hx heq
    · exact hmid.2 hmem

/-! ## Runs -/

/-- `fresh` is the region that `MemAlloc` returns if `Alloc` calls it. -/
inductive Op where
  | alloc (size fresh : Nat)
  | free (addr : Nat)

inductive Outcome where
  | addr (addr : Nat)
  | freed (ok : Bool)
  deriving DecidableEq, Repr

/-- The allocator, with the regions it got so far and the allocations in use: their addresses and
sizes. -/
structure Client where
  allocator : DefaultAllocator
  regions : List Nat
  live : List (Nat × Nat)

namespace Client

def new : Client := ⟨DefaultAllocator.new, [], []⟩

def exec (unit : Nat) (c : Client) : Op → Option (Outcome × Client)
  | .alloc size fresh =>
      (c.allocator.alloc unit size fresh).map fun (addr, s) =>
        (.addr addr, ⟨s, c.allocator.grown c.regions (align size) fresh,
          (addr, align size) :: c.live⟩)
  | .free addr =>
      (c.allocator.free addr).map fun (ok, s) =>
        (.freed ok, ⟨s, c.regions, if ok then c.live.eraseP fun r => r.1 = addr else c.live⟩)

/-- What callers do, and what `MemAlloc` is assumed to do. -/
def Asked (unit : Nat) (c : Client) : Op → Prop
  | .alloc size fresh => size < 2 ^ 30 ∧ Fresh unit c.allocator c.regions (align size) fresh
  | .free addr => ∃ r ∈ c.live, r.1 = addr

/-- The block that `total_block_` has for the address begins there, and its neighbours are what
`Free` takes them for. -/
def Trusted (c : Client) : Op → Prop
  | .alloc .. => True
  | .free addr => ∀ p, c.allocator.totalBlock addr = some p →
      ∃ b, c.allocator.blocks.get p = some b ∧ b.addr = addr ∧
        LinkOk c.allocator b.prev (fun d => d.addr + d.size = b.addr) ∧
        LinkOk c.allocator b.next (fun d => d.addr = b.addr + b.size)

/-- The allocations in use do not overlap. -/
def Disjoint (c : Client) : Prop :=
  c.live.Pairwise fun r t => r.1 + r.2 ≤ t.1 ∨ t.1 + t.2 ≤ r.1

/-- A block that is not in the set holds the allocation. -/
def Holds (s : DefaultAllocator) (r : Nat × Nat) : Prop :=
  ∃ p b, s.blocks.get p = some b ∧ b.addr = r.1 ∧ r.2 ≤ b.size ∧ p ∉ s.freeBlocks

structure Sound (unit : Nat) (c : Client) : Prop where
  inv : Inv unit c.regions c.allocator
  held : ∀ r ∈ c.live, 0 < r.2 ∧ Holds c.allocator r
  disjoint : c.Disjoint

variable {c c' : Client}

theorem align_pos (hsize : size < 2 ^ 30) : 0 < align size ∧ align size ≤ 2 ^ 30 := by
  unfold align
  split <;> omega

theorem sound_new : Sound unit Client.new :=
  ⟨⟨⟨nofun, nofun, nofun, nofun⟩, OrdSet.sorted_nil, nofun, nofun⟩, nofun, List.Pairwise.nil⟩

/-- The block of an allocation tells it. -/
theorem Sound.eq_of_addr (h : Sound unit c) {r t : Nat × Nat} (hr : r ∈ c.live) (ht : t ∈ c.live)
    (haddr : r.1 = t.1) : r = t := by
  by_contra hne
  have hsymm : Std.Symm fun r t : Nat × Nat => r.1 + r.2 ≤ t.1 ∨ t.1 + t.2 ≤ r.1 :=
    ⟨fun _ _ hor => hor.symm⟩
  have := h.disjoint.forall hr ht hne
  have h₁ := (h.held r hr).1
  have h₂ := (h.held t ht).1
  omega

theorem Sound.alloc (h : Sound unit c) (hunit : 2 ^ 30 ≤ unit) (hsize : size < 2 ^ 30)
    (hfresh : Fresh unit c.allocator c.regions (align size) fresh) :
    ∃ out c', c.exec unit (.alloc size fresh) = some (out, c') ∧ Sound unit c' := by
  obtain ⟨hpos, hle⟩ := align_pos hsize
  obtain ⟨p, s₁, b, htake, h₁, hb, hroom, hfree, hnew, hunchanged₁⟩ :=
    takeBlock_spec h.inv hpos (hle.trans hunit) hfresh
  obtain ⟨s₂, b', hsplit, h₂, hb', haddr, hroom', hfree', hunchanged₂⟩ :=
    splitBlock_spec h₁ hpos hb hroom hfree
  -- an allocation in use has another block
  have hother : ∀ r ∈ c.live, ∃ q d, q ≠ p ∧ s₂.blocks.get q = some d ∧ d.addr = r.1 ∧
      r.2 ≤ d.size ∧ q ∉ s₂.freeBlocks := by
    intro r hr
    obtain ⟨-, q, d, hd, hda, hds, hq⟩ := h.held r hr
    have hqp : q ≠ p := by
      rintro rfl
      rcases hnew with hnone | hmem
      · rw [hd] at hnone
        cases hnone
      · exact hq hmem
    obtain ⟨hd₂, hq₂⟩ := hunchanged₁.trans hunchanged₂ q d hqp hd hq
    exact ⟨q, d, hqp, hd₂, hda, hds, hq₂⟩
  refine ⟨.addr b.addr, ⟨s₂, _, (b.addr, align size) :: c.live⟩, ?_, ⟨h₂, fun r hr => ?_,
    List.pairwise_cons.mpr ⟨fun r hr => ?_, ?_⟩⟩⟩
  · rw [exec, DefaultAllocator.alloc, if_pos h.inv.readable, htake]
    dsimp only
    rw [hsplit]
    rfl
  · rcases List.mem_cons.mp hr with rfl | hr
    · exact ⟨hpos, p, b', hb', haddr, hroom', hfree'⟩
    · obtain ⟨q, d, -, hd, hda, hds, hq⟩ := hother r hr
      exact ⟨(h.held r hr).1, q, d, hd, hda, hds, hq⟩
  · obtain ⟨q, d, hqp, hd, hda, hds, -⟩ := hother r hr
    have := h₂.apart.disjoint p q b' d hb' hd hqp.symm
    dsimp only
    omega
  · exact h.disjoint

theorem Sound.free (h : Sound unit c) {addr : Nat} (hlive : ∃ r ∈ c.live, r.1 = addr)
    (htrusted : c.Trusted (.free addr)) :
    ∃ out c', c.exec unit (.free addr) = some (out, c') ∧ Sound unit c' := by
  obtain ⟨r, hr, hra⟩ := hlive
  cases htotal : c.allocator.totalBlock addr with
  | none =>
      refine ⟨.freed false, c, ?_, h⟩
      rw [exec, DefaultAllocator.free, htotal]
      rfl
  | some p =>
      obtain ⟨b, hb, hba, hprev, hnext⟩ := htrusted p htotal
      obtain ⟨-, q, d, hd, hda, -, hq⟩ := h.held r hr
      have hqp : q = p := h.inv.apart.eq_of_addr hd hb (by omega)
      subst hqp
      obtain ⟨s', hfree, h', hunchanged⟩ := free_spec h.inv htotal hb hq hprev hnext
      refine ⟨.freed true, _, by rw [exec, hfree]; rfl, ⟨h', fun t ht => ?_, ?_⟩⟩
      · rw [if_pos rfl] at ht
        have htlive := List.mem_of_mem_eraseP ht
        obtain ⟨hpos, x, e, he, hea, hes, hx⟩ := h.held t htlive
        -- the freed allocation is the only one of its block
        have hta : t.1 ≠ addr := by
          intro hta
          have hrt : r = t := h.eq_of_addr hr htlive (hra.trans hta.symm)
          have hnodup : c.live.Nodup := by
            refine h.disjoint.imp_of_mem fun {u v} hu hv hor heq => ?_
            have := (h.held u hu).1
            rw [heq] at hor this
            omega
          obtain ⟨v, L, R, hL, hv, hsplit, herase⟩ := List.exists_of_eraseP hr
            (p := fun r => decide (r.1 = addr)) (by simpa using hra)
          have hvr : v = r := h.eq_of_addr (by rw [hsplit]; simp) hr
            ((of_decide_eq_true hv).trans hra.symm)
          rw [herase, ← hrt, ← hvr] at ht
          rw [hsplit] at hnodup
          have hnotMem := List.nodup_middle.mp hnodup
          exact (List.nodup_cons.mp hnotMem).1 ht
        have hxq : x ≠ q := by
          rintro rfl
          rw [hb] at he
          cases he
          exact hta (hea.symm.trans hba)
        obtain ⟨he', hx'⟩ := hunchanged x e hxq he hx
        exact ⟨hpos, x, e, he', hea, hes, hx'⟩
      · rw [Disjoint, if_pos rfl]
        exact h.disjoint.sublist List.eraseP_sublist

/-- Every call that callers make and `Free` is right about returns and keeps allocations apart. -/
theorem Sound.exec (h : Sound unit c) (hunit : 2 ^ 30 ≤ unit) {op : Op} (hasked : c.Asked unit op)
    (htrusted : c.Trusted op) : ∃ out c', c.exec unit op = some (out, c') ∧ Sound unit c' := by
  cases op with
  | alloc size fresh => exact h.alloc hunit hasked.1 hasked.2
  | free addr => exact h.free hasked htrusted

def Step (unit : Nat) (c : Client) (l : Op × Outcome) (c' : Client) : Prop :=
  c.exec unit l.1 = some (l.2, c')

def stepFn (unit : Nat) (c : Client) (l : Op × Outcome) : Option Client :=
  (c.exec unit l.1).bind fun r => if r.1 = l.2 then some r.2 else none

theorem step_of_stepFn {l : Op × Outcome} (h : c.stepFn unit l = some c') : Step unit c l c' := by
  obtain ⟨⟨out, c''⟩, hexec, h⟩ := Option.bind_eq_some_iff.mp h
  split at h
  · rename_i hout
    cases h
    rw [Step, hexec, ← hout]
  · cases h

instance decidableFresh (unit : Nat) (s : DefaultAllocator) (regions : List Nat)
    (size fresh : Nat) : Decidable (Fresh unit s regions size fresh) :=
  inferInstanceAs (Decidable (s.lowerBound size = none → 0 < fresh ∧ fresh + unit ≤ 2 ^ 64 ∧
    ∀ r ∈ regions, r + unit ≤ fresh ∨ fresh + unit ≤ r))

instance decidableAsked (unit : Nat) (c : Client) (op : Op) : Decidable (c.Asked unit op) :=
  match op with
  | .alloc size fresh => inferInstanceAs
      (Decidable (size < 2 ^ 30 ∧ Fresh unit c.allocator c.regions (align size) fresh))
  | .free addr => inferInstanceAs (Decidable (∃ r ∈ c.live, r.1 = addr))

/-- `LinkOk` as a computation. -/
instance decidableLinkOk (s : DefaultAllocator) (link : Option Nat) (adjoins : Block → Prop)
    [DecidablePred adjoins] : Decidable (LinkOk s link adjoins) :=
  match link with
  | none => isTrue nofun
  | some q =>
      match hq : s.blocks.get q with
      | none => isFalse fun h => by
          obtain ⟨d, hd, -⟩ := h q rfl
          rw [hq] at hd
          cases hd
      | some d => decidable_of_iff (d.status ≠ 0 ∨ q ∈ s.freeBlocks ∧ adjoins d) (by
          constructor
          · rintro h x hx
            cases hx
            exact ⟨d, hq, h⟩
          · intro h
            obtain ⟨e, he, hor⟩ := h q rfl
            rw [hq] at he
            cases he
            exact hor)

instance decidableTrusted (c : Client) (op : Op) : Decidable (c.Trusted op) :=
  match op with
  | .alloc .. => isTrue trivial
  | .free addr =>
      match hp : c.allocator.totalBlock addr with
      | none => isTrue fun p hp' => by
          rw [hp] at hp'
          cases hp'
      | some p =>
          match hb : c.allocator.blocks.get p with
          | none => isFalse fun h => by
              obtain ⟨b, hb', -⟩ := h p hp
              rw [hb] at hb'
              cases hb'
          | some b => decidable_of_iff (b.addr = addr ∧
                LinkOk c.allocator b.prev (fun d => d.addr + d.size = b.addr) ∧
                LinkOk c.allocator b.next (fun d => d.addr = b.addr + b.size)) (by
              constructor
              · intro h x hx
                rw [hp] at hx
                cases hx
                exact ⟨b, hb, h⟩
              · intro h
                obtain ⟨d, hd, hrest⟩ := h p hp
                rw [hb] at hd
                cases hd
                exact hrest)

end Client

/-- As long as each `Free` is right about the neighbours of its block, allocations in use do not
overlap, and the next such call reads no deleted block. -/
theorem defaultAllocator_disjoint {unit : Nat} (hunit : 2 ^ 30 ≤ unit) {ls : List (Op × Outcome)}
    {c : Client}
    (h : Run (fun c l c' => Client.Step unit c l c' ∧ c.Asked unit l.1 ∧ c.Trusted l.1)
      Client.new ls c) :
    c.Disjoint ∧ ∀ op, c.Asked unit op → c.Trusted op → (c.exec unit op).isSome := by
  have hsound : Client.Sound unit c := by
    refine h.state_inv (I := Client.Sound unit) Client.sound_new ?_
    rintro c ⟨op, out⟩ c' hsound ⟨hstep, hasked, htrusted⟩
    obtain ⟨out', c'', hexec, hsound'⟩ := hsound.exec hunit hasked htrusted
    rw [Client.Step, hexec] at hstep
    cases hstep
    exact hsound'
  refine ⟨hsound.disjoint, fun op hasked htrusted => ?_⟩
  obtain ⟨out, c', hexec, -⟩ := hsound.exec hunit hasked htrusted
  rw [hexec]
  rfl

/-- Three blocks that are freed from the first on, so that each takes in the one before it, and
one that is cut from them again. -/
theorem defaultAllocator_disjoint_merged :
    ∃ c, Run (fun c l c' => Client.Step (2 ^ 64 - 2 ^ 31) c l c' ∧
        c.Asked (2 ^ 64 - 2 ^ 31) l.1 ∧ c.Trusted l.1) Client.new
      [(.alloc 512 4096, .addr 4096), (.alloc 100 0, .addr 4608), (.alloc 600 0, .addr 5120),
        (.free 4096, .freed true), (.free 4608, .freed true), (.alloc 700 0, .addr 4096)] c ∧
      c.Disjoint := by
  have hexec : (Run.exec (Client.stepFn (2 ^ 64 - 2 ^ 31))
      (fun c l => c.Asked (2 ^ 64 - 2 ^ 31) l.1 ∧ c.Trusted l.1) Client.new
      [(.alloc 512 4096, .addr 4096), (.alloc 100 0, .addr 4608), (.alloc 600 0, .addr 5120),
        (.free 4096, .freed true), (.free 4608, .freed true),
        (.alloc 700 0, .addr 4096)]).isSome := by decide +kernel
  obtain ⟨c, hc⟩ := Option.isSome_iff_exists.mp hexec
  have hrun : Run (fun c l c' => Client.Step (2 ^ 64 - 2 ^ 31) c l c' ∧
      c.Asked (2 ^ 64 - 2 ^ 31) l.1 ∧ c.Trusted l.1) Client.new _ c :=
    (Run.of_exec hc).imp fun _ _ _ h => ⟨Client.step_of_stepFn h.1, h.2⟩
  exact ⟨c, hrun, (defaultAllocator_disjoint (by decide) hrun).1⟩

/-- The second of two blocks is freed: it takes in the first, which is in use but was never marked
so, and the next call returns the first once more. -/
theorem allocation_handed_out_twice :
    ∃ c, Run (fun c l c' => Client.Step (2 ^ 64 - 2 ^ 31) c l c' ∧
        c.Asked (2 ^ 64 - 2 ^ 31) l.1) Client.new
      [(.alloc 512 4096, .addr 4096), (.alloc 512 0, .addr 4608), (.free 4608, .freed true),
        (.alloc 512 0, .addr 4096)] c ∧ ¬c.Disjoint := by
  have hexec : ∃ c ∈ Run.exec (Client.stepFn (2 ^ 64 - 2 ^ 31))
      (fun c l => c.Asked (2 ^ 64 - 2 ^ 31) l.1) Client.new
      [(.alloc 512 4096, .addr 4096), (.alloc 512 0, .addr 4608), (.free 4608, .freed true),
        (.alloc 512 0, .addr 4096)], c.live = [(4096, 512), (4096, 512)] := by decide +kernel
  obtain ⟨c, hc, hlive⟩ := hexec
  refine ⟨c, (Run.of_exec hc).imp fun _ _ _ h => ⟨Client.step_of_stepFn h.1, h.2⟩, ?_⟩
  rw [Client.Disjoint, hlive]
  decide

end Ccbase.Application.DefaultAllocator
