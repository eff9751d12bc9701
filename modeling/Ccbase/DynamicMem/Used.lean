import Ccbase.DynamicMem.Live

/-!
# The used bufs over a step

Which bufs are in use after a step, in terms of those before it: an allocation
adds one, and a free takes one away. No step moves a block.
-/

namespace Ccbase.DynamicMem

open Ccbase.Lib

/-- A buf of one of the pools that is in use. -/
def UsedIn (p : DynamicMemPoolBestFit) (b : Bool) (x : DynamicMemBuf) : Prop :=
  InPool p b x ∧ x.status = .used

/-! ## One pool -/

section Used

variable {m m' : MemStatusManager} {L R : List (DynamicMemBlock DynamicMemBuf)}
  {blk : DynamicMemBlock DynamicMemBuf} {l r : List DynamicMemBuf} {x y : DynamicMemBuf}
  {split : Nat → Nat → Bool} {size : Nat}

theorem mem_takeBufs_iff (hused : y.status = .used) :
    y ∈ takeBufs split size x ↔ y = usedBuf split size x := by
  have hrest : y ≠ restOf size x := by
    rintro rfl
    cases hused
  rw [takeBufs, usedBuf, takeSize]
  split
  · simp [hrest]
  · simp

theorem Taken.used_iff (h : Taken split size m m' L blk R l x r) (hused : y.status = .used) :
    y ∈ allBufs m'.memBlockList ↔ y ∈ allBufs m.memBlockList ∨ y = usedBuf split size x := by
  have hne : y ≠ x := by
    rintro rfl
    rw [h.idle] at hused
    cases hused
  rw [allBufs_at h.place, h.blocks, allBufs_setBufs]
  simp only [List.mem_append, List.mem_cons, mem_takeBufs_iff hused, hne, false_or]
  tauto

theorem Created.used_iff {addr len streamId : Nat}
    (h : Created split size addr len streamId m m' L R) (hused : y.status = .used) :
    y ∈ allBufs m'.memBlockList ↔
      y ∈ allBufs m.memBlockList ∨ y = usedBuf split size (wholeBuf addr len) := by
  have hLR : y ∈ allBufs (L ++ R) ↔ y ∈ allBufs m.memBlockList :=
    (h.perm.flatMap_right _).mem_iff
  rw [← hLR, h.blocks, allBufs_setBufs, allBufs_append]
  simp only [List.mem_append, mem_takeBufs_iff hused]
  tauto

/-- No other place has the buf. -/
theorem Placed.not_mem_others {blocks : List (DynamicMemBlock DynamicMemBuf)}
    (h : Placed DynamicMemBuf.deviceAddr DynamicMemBuf.size blocks)
    (hat : At blocks L blk R l x r) : x ∉ allBufs L ++ (l ++ r) ++ allBufs R := by
  obtain ⟨hL, hR, hl, hr⟩ := h.addr_ne hat
  simp only [List.mem_append, mem_allBufs]
  rintro ((⟨b, hb, hx⟩ | hx | hx) | ⟨b, hb, hx⟩)
  · exact hL b hb x hx rfl
  · exact hl x hx rfl
  · exact hr x hx rfl
  · exact hR b hb x hx rfl

theorem Freed.used_iff {prev next : Option DynamicMemBuf} (hinv : MngInv m)
    (h : Freed m m' L blk R l prev x next r) (hused : y.status = .used) :
    y ∈ allBufs m'.memBlockList ↔ y ∈ allBufs m.memBlockList ∧ y ≠ x := by
  constructor
  · intro hy
    have hne : y ≠ joined prev x next := by
      rintro rfl
      cases hused
    rw [h.blocks, allBufs_setBufs] at hy
    simp only [List.mem_append, List.mem_cons, hne, false_or] at hy
    refine ⟨?_, ?_⟩
    · rw [allBufs_at h.place]
      simp only [List.mem_append, List.mem_cons]
      tauto
    · rintro rfl
      refine hinv.placed.not_mem_others h.place ?_
      simp only [List.mem_append]
      tauto
  · rintro ⟨hy, hne⟩
    exact h.used_mem hy hused hne

end Used

/-! ## Both pools -/

section Pools

variable {p p' : DynamicMemPoolBestFit} {t : SplitTests} {size streamId a : Nat}
  {d : DeviceAnswer} {b : Bool}

theorem SamePool.usedIn (h : SamePool p p') (b : Bool) (y : DynamicMemBuf) :
    UsedIn p' b y ↔ UsedIn p b y := by
  rw [UsedIn, UsedIn, InPool, InPool, (h.mngs b).blocks]

/-- The used bufs of both pools, from those of the pool that is meant. -/
theorem Elsewhere.usedIn {P : Bool → DynamicMemBuf → Prop} (he : Elsewhere b p p')
    (hsame : ∀ y, y.status = .used → (InPool p' b y ↔ P b y))
    (hother : ∀ y, y.status = .used → (InPool p (!b) y ↔ P (!b) y)) (b' : Bool)
    (y : DynamicMemBuf) : UsedIn p' b' y ↔ P b' y ∧ y.status = .used := by
  rw [UsedIn]
  refine and_congr_left fun hused => ?_
  by_cases hb : b' = b
  · subst hb
    exact hsame y hused
  · obtain rfl : b' = !b := by
      cases b <;> cases b' <;> simp_all
    rw [← hother y hused, InPool, InPool, he.other.blocks]

/-- An allocation adds the buf that it returns to the bufs in use. -/
theorem Allocated.usedIn (h : Allocated t size streamId d p p' a) :
    ∃ b₀ z, UsedIn p' b₀ z ∧ z.deviceAddr = a ∧ size ≤ z.size ∧
      ∀ b y, UsedIn p' b y ↔ UsedIn p b y ∨ b = b₀ ∧ y = z := by
  obtain ⟨b₀, z, hz, haddr, hfits, hiff, he⟩ : ∃ b₀ z, z.status = .used ∧ z.deviceAddr = a ∧
      size ≤ z.size ∧ (∀ y, y.status = .used → (InPool p' b₀ y ↔ InPool p b₀ y ∨ y = z)) ∧
        Elsewhere b₀ p p' := by
    cases h with
    | @taken b L R blk l r x hstream h he =>
        exact ⟨b, usedBuf t.find size x, rfl, rfl, le_usedBuf_size h.fits,
          fun y hy => h.used_iff hy, he⟩
    | created b hfits h he =>
        exact ⟨b, usedBuf t.create size (wholeBuf d.addr d.size), rfl, rfl,
          le_usedBuf_size hfits, fun y hy => h.used_iff hy, he⟩
  have husedIn := he.usedIn (P := fun b y => InPool p b y ∨ b = b₀ ∧ y = z)
    (fun y hy => by rw [hiff y hy]; simp) (fun y _ => by simp)
  refine ⟨b₀, z, (husedIn b₀ z).mpr ⟨Or.inr ⟨rfl, rfl⟩, hz⟩, haddr, hfits, fun b y => ?_⟩
  rw [husedIn b y, UsedIn, or_and_right]
  refine or_congr Iff.rfl (and_iff_left_of_imp ?_)
  rintro ⟨-, rfl⟩
  exact hz

/-- A free takes the buf at its address from the bufs in use. -/
theorem Freed.usedIn {L R : List (DynamicMemBlock DynamicMemBuf)}
    {blk : DynamicMemBlock DynamicMemBuf} {l r : List DynamicMemBuf} {x : DynamicMemBuf}
    {prev next : Option DynamicMemBuf} (hinv : PoolInv p)
    (h : Freed (p.mng b) (p'.mng b) L blk R l prev x next r) (he : Elsewhere b p p') (b' : Bool)
    (y : DynamicMemBuf) : UsedIn p' b' y ↔ UsedIn p b' y ∧ y.deviceAddr ≠ x.deviceAddr := by
  have hx : InPool p b x :=
    mem_allBufs.mpr ⟨blk, Placed.mem_at h.place, Placed.mem_buf_at h.place⟩
  rw [he.usedIn (P := fun b y => InPool p b y ∧ y.deviceAddr ≠ x.deviceAddr) (fun y hy => ?_)
    (fun y _ => ?_), UsedIn, and_right_comm]
  · rw [InPool, h.used_iff (hinv.mngs b) hy]
    refine and_congr_right fun hmem => not_congr ⟨fun heq => by rw [heq], fun haddr => ?_⟩
    exact (hinv.eq_of_addr hmem hx haddr).2
  · refine (and_iff_left_of_imp fun hmem haddr => ?_).symm
    have hb := (hinv.eq_of_addr hmem hx haddr).1
    cases b <;> cases hb

end Pools

/-! ## Blocks stay where they are -/

/-- Where the blocks are, and for which streams. -/
def outline (blocks : List (DynamicMemBlock DynamicMemBuf)) : List (Nat × Nat × Nat) :=
  blocks.map fun b => (b.deviceAddrBase, b.memBlockSize, b.streamId)

theorem outline_setBufs {blocks L R : List (DynamicMemBlock DynamicMemBuf)}
    {blk : DynamicMemBlock DynamicMemBuf} (h : blocks = L ++ blk :: R)
    (bufs : List DynamicMemBuf) : outline (L ++ blk.setBufs bufs :: R) = outline blocks := by
  rw [h, outline, outline, List.map_append, List.map_append, List.map_cons, List.map_cons]
  rfl

/-- A block with the same place in the other list. -/
theorem exists_of_outline {blocks blocks' : List (DynamicMemBlock DynamicMemBuf)}
    (h : outline blocks' = outline blocks) {blk : DynamicMemBlock DynamicMemBuf}
    (hblk : blk ∈ blocks) : ∃ blk' ∈ blocks', blk'.deviceAddrBase = blk.deviceAddrBase ∧
      blk'.memBlockSize = blk.memBlockSize ∧ blk'.streamId = blk.streamId := by
  have hmem : (blk.deviceAddrBase, blk.memBlockSize, blk.streamId) ∈ outline blocks' := by
    rw [h]
    exact List.mem_map_of_mem hblk
  obtain ⟨blk', hblk', heq⟩ := List.mem_map.mp hmem
  simp only [Prod.mk.injEq] at heq
  exact ⟨blk', hblk', heq⟩

end Ccbase.DynamicMem
