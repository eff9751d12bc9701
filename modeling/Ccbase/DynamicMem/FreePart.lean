import Ccbase.DynamicMem.Keep

/-!
# `FreePartTensorMems`

A buf that is freed lies in one idle buf until the ranges to keep are taken, and a
range that is still to be taken lies in one idle buf after every other one. So what
is in use at the end is what was not freed, and the ranges.
-/

namespace Ccbase.DynamicMem

open Ccbase.Lib

/-- The range `[k, k + size)` is in the range of the buf. -/
def Covers (x : DynamicMemBuf) (k size : Nat) : Prop :=
  x.deviceAddr ≤ k ∧ k + size ≤ x.deviceAddr + x.size

instance decidableCovers (x : DynamicMemBuf) (k size : Nat) : Decidable (Covers x k size) :=
  inferInstanceAs (Decidable (_ ∧ _))

/-- The range is in an idle buf of a pool. -/
def InIdle (p : DynamicMemPoolBestFit) (b : Bool) (k size : Nat) : Prop :=
  ∃ w, InPool p b w ∧ w.status = .idle ∧ Covers w k size

/-- An address in a block of a pool. -/
def InBlock (p : DynamicMemPoolBestFit) (b : Bool) (k : Nat) : Prop :=
  ∃ blk ∈ (p.mng b).memBlockList,
    blk.deviceAddrBase ≤ k ∧ k < blk.deviceAddrBase + blk.memBlockSize

/-! ## Idle ranges over a step -/

section Steps

variable {m m' : MemStatusManager} {L R : List (DynamicMemBlock DynamicMemBuf)}
  {blk : DynamicMemBlock DynamicMemBuf} {l r : List DynamicMemBuf} {x w : DynamicMemBuf}
  {prev next : Option DynamicMemBuf} {k size k' size' : Nat}

/-- A buf that is joined covers what it is made of. -/
theorem covers_joined {a z : Nat} (h : Tiles DynamicMemBuf.deviceAddr DynamicMemBuf.size a
      (l ++ prev.toList ++ x :: (next.toList ++ r)) z) :
    ∀ w ∈ prev.toList ++ x :: next.toList, Covers (joined prev x next) w.deviceAddr w.size := by
  obtain ⟨hl, hx, hr⟩ := h.middle
  obtain ⟨p, -, hprev⟩ := Tiles.append_iff.mp hl
  obtain ⟨q, hnext, -⟩ := Tiles.append_iff.mp hr
  have hp : (joined prev x next).deviceAddr = p ∧ p + sizeOpt prev = x.deviceAddr := by
    cases prev with
    | none => exact ⟨hprev.symm, hprev⟩
    | some b => exact ⟨hprev.1, hprev.2.2⟩
  have hq : x.deviceAddr + x.size + sizeOpt next = q := by
    cases next with
    | none => exact hnext
    | some b => exact hnext.2.2
  have hsize : (joined prev x next).size = sizeOpt prev + (x.size + sizeOpt next) := rfl
  intro w hw
  rcases List.mem_append.mp hw with hw | hw
  · have := hprev.bounds hw
    rw [Covers]
    omega
  · rcases List.mem_cons.mp hw with rfl | hw
    · rw [Covers]
      omega
    · have := hnext.bounds hw
      rw [Covers]
      omega

theorem Covers.trans {y : DynamicMemBuf} (h : Covers y x.deviceAddr x.size)
    (h' : Covers x k size) : Covers y k size := by
  rw [Covers] at h h' ⊢
  omega

/-- What is idle stays idle, and the buf that comes back is. -/
theorem Freed.covered (hinv : MngInv m) (h : Freed m m' L blk R l prev x next r)
    (hw : w ∈ allBufs m.memBlockList) (hidle : w.status = .idle ∨ w = x) :
    ∃ y ∈ allBufs m'.memBlockList, y.status = .idle ∧ Covers y w.deviceAddr w.size := by
  rw [allBufs_at h.place] at hw
  rw [h.blocks, allBufs_setBufs]
  by_cases hjoin : w ∈ prev.toList ++ x :: next.toList
  · exact ⟨joined prev x next, by simp, rfl,
      covers_joined (hinv.placed.tiles_at h.place) w hjoin⟩
  · simp only [List.mem_append, List.mem_cons, not_or] at hw hjoin
    refine ⟨w, ?_, hidle.resolve_right hjoin.2.1, Nat.le_refl _, Nat.le_refl _⟩
    simp only [List.mem_append, List.mem_cons]
    tauto

/-- A range apart from the one that is kept stays idle. -/
theorem Kept.idle_apart (h : Kept m m' L blk R l x r k size)
    (hw : w ∈ allBufs m.memBlockList) (hidle : w.status = .idle) (hcovers : Covers w k' size')
    (hpos : 0 < size') (hapart : k + size ≤ k' ∨ k' + size' ≤ k) :
    ∃ y ∈ allBufs m'.memBlockList, y.status = .idle ∧ Covers y k' size' := by
  rw [h.blocks, allBufs_setBufs]
  by_cases hwx : w = x
  · subst hwx
    obtain ⟨hlo, hhi⟩ := hcovers
    have hkpos := h.pos
    have hklo := h.lo
    have hkhi := h.hi
    rcases hapart with hapart | hapart
    · have hne : k + size ≠ w.deviceAddr + w.size := by omega
      refine ⟨⟨k + size, .idle, w.deviceAddr + w.size - (k + size)⟩, ?_, rfl, hapart, ?_⟩
      · rw [keepBufs, rightOf, if_neg hne]
        simp
      · show k' + size' ≤ k + size + (w.deviceAddr + w.size - (k + size))
        omega
    · have hne : k ≠ w.deviceAddr := by omega
      refine ⟨⟨w.deviceAddr, .idle, k - w.deviceAddr⟩, ?_, rfl, hlo, ?_⟩
      · rw [keepBufs, leftOf, if_neg hne]
        simp
      · show k' + size' ≤ w.deviceAddr + (k - w.deviceAddr)
        omega
  · refine ⟨w, ?_, hidle, hcovers⟩
    rw [allBufs_at h.place] at hw
    simp only [List.mem_append, List.mem_cons, hwx, false_or] at hw ⊢
    tauto

end Steps

/-! ## What no step of `FreePartTensorMems` changes -/

/-- The blocks are where they were, and the units of growth are the same. -/
structure SameBlocks (p p' : DynamicMemPoolBestFit) : Prop where
  outline : ∀ b, outline (p'.mng b).memBlockList = outline (p.mng b).memBlockList
  unitSize : ∀ b, (p'.mng b).unitSize = (p.mng b).unitSize

section SameBlocks

variable {p p₁ p' : DynamicMemPoolBestFit} {b : Bool} {k : Nat}

theorem SameBlocks.refl (p : DynamicMemPoolBestFit) : SameBlocks p p :=
  ⟨fun _ => rfl, fun _ => rfl⟩

theorem SameBlocks.trans (h : SameBlocks p p₁) (h' : SameBlocks p₁ p') : SameBlocks p p' :=
  ⟨fun b => (h'.outline b).trans (h.outline b), fun b => (h'.unitSize b).trans (h.unitSize b)⟩

theorem Elsewhere.sameBlocks {L R : List (DynamicMemBlock DynamicMemBuf)}
    {blk : DynamicMemBlock DynamicMemBuf} {bufs : List DynamicMemBuf} (he : Elsewhere b p p')
    (hplace : (p.mng b).memBlockList = L ++ blk :: R)
    (hblocks : (p'.mng b).memBlockList = L ++ blk.setBufs bufs :: R)
    (hunit : (p'.mng b).unitSize = (p.mng b).unitSize) : SameBlocks p p' := by
  have hsame : outline (p'.mng b).memBlockList = outline (p.mng b).memBlockList := by
    rw [hblocks, outline_setBufs hplace]
  have hother : outline (p'.mng (!b)).memBlockList = outline (p.mng (!b)).memBlockList := by
    rw [he.other.blocks]
  cases b with
  | false => exact ⟨Bool.forall_bool.mpr ⟨hsame, hother⟩,
      Bool.forall_bool.mpr ⟨hunit, he.other.unitSize⟩⟩
  | true => exact ⟨Bool.forall_bool.mpr ⟨hother, hsame⟩,
      Bool.forall_bool.mpr ⟨he.other.unitSize, hunit⟩⟩

theorem SameBlocks.symm (h : SameBlocks p p') : SameBlocks p' p :=
  ⟨fun b => (h.outline b).symm, fun b => (h.unitSize b).symm⟩

theorem SameBlocks.inBlock_of (h : SameBlocks p p') (hk : InBlock p b k) : InBlock p' b k := by
  obtain ⟨blk, hblk, hlo, hhi⟩ := hk
  obtain ⟨blk', hblk', hbase, hsize, -⟩ := exists_of_outline (h.outline b) hblk
  exact ⟨blk', hblk', by omega, by omega⟩

theorem SameBlocks.inBlock (h : SameBlocks p p') : InBlock p' b k ↔ InBlock p b k :=
  ⟨h.symm.inBlock_of, h.inBlock_of⟩

theorem SameBlocks.misled (h : SameBlocks p p') (hk : Misled p' k) : Misled p k := by
  obtain ⟨⟨P, hP, hstart⟩, B, hB, hend⟩ := hk
  obtain ⟨P', hP', hbase', -, -⟩ := exists_of_outline (h.symm.outline true) hP
  obtain ⟨B', hB', hbase, hsize, -⟩ := exists_of_outline (h.symm.outline false) hB
  exact ⟨⟨P', hP', by omega⟩, B', hB', by omega⟩

/-- A range in a buf is in a block. -/
theorem PoolInv.inBlock (hinv : PoolInv p) {x : DynamicMemBuf} {size : Nat} (hx : InPool p b x)
    (hcovers : Covers x k size) (hpos : 0 < size) : InBlock p b k := by
  obtain ⟨blk, hblk, hx⟩ := mem_allBufs.mp hx
  have hin := (hinv.mngs b).placed.inside hblk hx
  obtain ⟨hlo, hhi⟩ := hcovers
  exact ⟨blk, hblk, by omega, by omega⟩

/-- The blocks of the two pools are apart. -/
theorem PoolInv.inBlock_inj (hinv : PoolInv p) {b' : Bool} (hk : InBlock p b k)
    (hk' : InBlock p b' k) : b = b' := by
  obtain ⟨blk, hblk, hlo, hhi⟩ := hk
  obtain ⟨blk', hblk', hlo', hhi'⟩ := hk'
  by_contra hne
  obtain rfl : b' = !b := by
    cases b <;> cases b' <;> simp_all
  have hapart := hinv.apart b blk hblk blk' hblk'
  rw [Apart] at hapart
  omega

end SameBlocks

/-! ## The bufs that are freed -/

/-- From `p` to `p'`, the bufs at the addresses have come back. -/
structure FreedAll (frees : List Nat) (p p' : DynamicMemPoolBestFit) : Prop where
  inv : PoolInv p'
  same : SameBlocks p p'
  used : ∀ b y, UsedIn p' b y ↔ UsedIn p b y ∧ y.deviceAddr ∉ frees
  idle : ∀ b w, InPool p b w → w.status = .idle ∨ w.status = .used ∧ w.deviceAddr ∈ frees →
    InIdle p' b w.deviceAddr w.size

theorem InIdle.trans {p : DynamicMemPoolBestFit} {b : Bool} {x : DynamicMemBuf} {k size : Nat}
    (h : InIdle p b x.deviceAddr x.size) (hcovers : Covers x k size) : InIdle p b k size := by
  obtain ⟨w, hw, hidle, hwx⟩ := h
  exact ⟨w, hw, hidle, hwx.trans hcovers⟩

/-- What is idle, or comes back, lies in an idle buf of its pool after the step. -/
theorem Freed.inIdle {p p' : DynamicMemPoolBestFit} {b b' : Bool}
    {L R : List (DynamicMemBlock DynamicMemBuf)} {blk : DynamicMemBlock DynamicMemBuf}
    {l r : List DynamicMemBuf} {x w : DynamicMemBuf} {prev next : Option DynamicMemBuf}
    (hinv : PoolInv p) (h : Freed (p.mng b) (p'.mng b) L blk R l prev x next r)
    (he : Elsewhere b p p') (hw : InPool p b' w)
    (hidle : w.status = .idle ∨ w.deviceAddr = x.deviceAddr) :
    InIdle p' b' w.deviceAddr w.size := by
  have hx : InPool p b x :=
    mem_allBufs.mpr ⟨blk, Placed.mem_at h.place, Placed.mem_buf_at h.place⟩
  by_cases hb : b' = b
  · subst hb
    refine h.covered (hinv.mngs b') hw (hidle.imp_right fun haddr => ?_)
    exact (hinv.eq_of_addr hw hx haddr).2
  · obtain rfl : b' = !b := by
      cases b <;> cases b' <;> simp_all
    refine ⟨w, ?_, ?_, Nat.le_refl _, Nat.le_refl _⟩
    · rw [InPool, he.other.blocks]
      exact hw
    · refine hidle.resolve_right fun haddr => ?_
      have heq := (hinv.eq_of_addr hw hx haddr).1
      cases b <;> cases heq

theorem freeAll_spec {frees : List Nat} : ∀ {p : DynamicMemPoolBestFit}, PoolInv p →
    frees.Nodup → (∀ a ∈ frees, ∃ b x, UsedIn p b x ∧ x.deviceAddr = a) →
    ∃ p', frees.foldlM (fun p a => p.freeTensorMem a) p = some p' ∧ FreedAll frees p p' := by
  induction frees with
  | nil =>
      intro p hinv _ _
      refine ⟨p, rfl, hinv, SameBlocks.refl p, fun b y => by simp, fun b w hw hidle => ?_⟩
      exact ⟨w, hw, hidle.resolve_right (by simp), Nat.le_refl _, Nat.le_refl _⟩
  | cons a frees ih =>
      intro p hinv hnodup hused
      obtain ⟨ha, htail⟩ := List.nodup_cons.mp hnodup
      obtain ⟨b, x, ⟨hx, hxused⟩, rfl⟩ := hused a (List.mem_cons_self ..)
      obtain ⟨p₁, L, blk, R, l, prev, next, r, hp₁, hfreed, he⟩ :=
        freeTensorMem_spec hinv hx hxused
      have husedIn := hfreed.usedIn hinv he
      obtain ⟨p', hp', hall⟩ := ih (freed_poolInv hinv hfreed he) htail fun a' ha' => by
        obtain ⟨b', x', hx', rfl⟩ := hused a' (List.mem_cons_of_mem _ ha')
        refine ⟨b', x', (husedIn b' x').mpr ⟨hx', ?_⟩, rfl⟩
        intro haddr
        exact ha (haddr ▸ ha')
      refine ⟨p', ?_, hall.inv, ?_, fun b' y => ?_, fun b' w hw hidle => ?_⟩
      · rw [List.foldlM_cons, hp₁]
        exact hp'
      · exact (he.sameBlocks hfreed.place.blocks hfreed.blocks hfreed.unitSize).trans hall.same
      · rw [hall.used, husedIn, List.mem_cons, not_or, and_assoc]
      · by_cases hfirst : w.status = .idle ∨ w.deviceAddr = x.deviceAddr
        · obtain ⟨y, hy, hyidle, hcovers⟩ := hfreed.inIdle hinv he hw hfirst
          exact (hall.idle b' y hy (Or.inl hyidle)).trans hcovers
        · obtain ⟨hnidle, hne⟩ := not_or.mp hfirst
          obtain ⟨hwused, hmem⟩ := hidle.resolve_left hnidle
          have hw₁ := (husedIn b' w).mpr ⟨⟨hw, hwused⟩, hne⟩
          refine hall.idle b' w hw₁.1 (Or.inr ⟨hwused, ?_⟩)
          exact (List.mem_cons.mp hmem).resolve_left hne

/-! ## The ranges that are kept -/

/-- Two ranges that do not meet. -/
def RangesApart (k k' : Nat × Nat) : Prop := k.1 + k.2 ≤ k'.1 ∨ k'.1 + k'.2 ≤ k.1

instance decidableRangesApart : DecidableRel RangesApart := fun k k' =>
  inferInstanceAs (Decidable (k.1 + k.2 ≤ k'.1 ∨ k'.1 + k'.2 ≤ k.1))

/-- From `p` to `p'`, the ranges have gone into use. -/
structure KeptAll (keeps : List (Nat × Nat)) (p p' : DynamicMemPoolBestFit) : Prop where
  inv : PoolInv p'
  same : SameBlocks p p'
  used : ∀ b y, UsedIn p' b y ↔ UsedIn p b y ∨
    ∃ k ∈ keeps, InBlock p b k.1 ∧ y = keptBuf k.1 k.2

section KeepAll

variable {p p' : DynamicMemPoolBestFit} {b b' : Bool} {L R : List (DynamicMemBlock DynamicMemBuf)}
  {blk : DynamicMemBlock DynamicMemBuf} {l r : List DynamicMemBuf} {x : DynamicMemBuf}
  {k size k' size' : Nat}

theorem Kept.inIdle (h : Kept (p.mng b) (p'.mng b) L blk R l x r k size) (he : Elsewhere b p p')
    (hk : InIdle p b' k' size') (hpos : 0 < size')
    (hapart : k + size ≤ k' ∨ k' + size' ≤ k) : InIdle p' b' k' size' := by
  obtain ⟨w, hw, hidle, hcovers⟩ := hk
  by_cases hb : b' = b
  · subst hb
    exact h.idle_apart hw hidle hcovers hpos hapart
  · obtain rfl : b' = !b := by
      cases b <;> cases b' <;> simp_all
    refine ⟨w, ?_, hidle, hcovers⟩
    rw [InPool, he.other.blocks]
    exact hw

/-- A range that is kept is one more buf in use, in the pool that it lies in. -/
theorem Kept.usedIn (hinv : PoolInv p) (h : Kept (p.mng b) (p'.mng b) L blk R l x r k size)
    (he : Elsewhere b p p') (b' : Bool) (y : DynamicMemBuf) :
    UsedIn p' b' y ↔ UsedIn p b' y ∨ InBlock p b' k ∧ y = keptBuf k size := by
  have hx : InPool p b x :=
    mem_allBufs.mpr ⟨blk, Placed.mem_at h.place, Placed.mem_buf_at h.place⟩
  have hin : InBlock p b k := hinv.inBlock hx ⟨h.lo, h.hi⟩ h.pos
  rw [he.usedIn (P := fun b y => InPool p b y ∨ InBlock p b k ∧ y = keptBuf k size)
    (fun y hy => ?_) fun y hy => ?_, UsedIn, or_and_right]
  · refine or_congr Iff.rfl (and_iff_left_of_imp ?_)
    rintro ⟨-, rfl⟩
    rfl
  · rw [InPool, h.used_iff hy, InPool]
    simp [hin]
  · refine (or_iff_left ?_).symm
    rintro ⟨hother, -⟩
    have hb := hinv.inBlock_inj hin hother
    cases b <;> cases hb

theorem keepAll_spec {keeps : List (Nat × Nat)} : ∀ {p : DynamicMemPoolBestFit}, PoolInv p →
    keeps.Pairwise RangesApart →
    (∀ k ∈ keeps, 0 < k.2 ∧ ¬ Misled p k.1 ∧ ∃ b, InIdle p b k.1 k.2) →
    ∃ p', keeps.foldlM (fun p k => p.keepTensorMemByAddr k.1 k.2) p = some p' ∧
      KeptAll keeps p p' := by
  induction keeps with
  | nil =>
      intro p hinv _ _
      exact ⟨p, rfl, hinv, SameBlocks.refl p, fun b y => by simp⟩
  | cons k keeps ih =>
      intro p hinv hapart hkeeps
      obtain ⟨hk, htail⟩ := List.pairwise_cons.mp hapart
      obtain ⟨hpos, hsafe, b, x, hx, hidle, hlo, hhi⟩ := hkeeps k (List.mem_cons_self ..)
      obtain ⟨p₁, L, blk, R, l, r, hp₁, hkept, he⟩ :=
        keepTensorMemByAddr_spec hinv hx hidle hpos hlo hhi hsafe
      have hsame := he.sameBlocks hkept.place.blocks hkept.blocks hkept.unitSize
      obtain ⟨p', hp', hall⟩ := ih (hkept.poolInv hinv he) htail fun k' hk' => by
        obtain ⟨hpos', hsafe', b', hidle'⟩ := hkeeps k' (List.mem_cons_of_mem _ hk')
        exact ⟨hpos', fun h => hsafe' (hsame.misled h), b',
          hkept.inIdle he hidle' hpos' (hk k' hk')⟩
      refine ⟨p', ?_, hall.inv, hsame.trans hall.same, fun b' y => ?_⟩
      · rw [List.foldlM_cons, hp₁]
        exact hp'
      · rw [hall.used, hkept.usedIn hinv he, or_assoc]
        simp only [hsame.inBlock, List.mem_cons, or_and_right, exists_or, exists_eq_left]

end KeepAll

/-! ## The whole call -/

/-- What a call of `FreePartTensorMems` may be given: addresses of bufs in use, none of them
twice, and ranges in these bufs that are not empty and do not meet. -/
structure PartAllowed (p : DynamicMemPoolBestFit) (frees : List Nat) (keeps : List (Nat × Nat)) :
    Prop where
  nodup : frees.Nodup
  used : ∀ a ∈ frees, ∃ b x, UsedIn p b x ∧ x.deviceAddr = a
  pos : ∀ k ∈ keeps, 0 < k.2
  apart : keeps.Pairwise RangesApart
  inside : ∀ k ∈ keeps, ∃ b x, UsedIn p b x ∧ x.deviceAddr ∈ frees ∧ Covers x k.1 k.2

/-- From `p` to `p'`, the bufs have come back but for the ranges. -/
structure PartFreed (frees : List Nat) (keeps : List (Nat × Nat)) (p p' : DynamicMemPoolBestFit) :
    Prop where
  inv : PoolInv p'
  same : SameBlocks p p'
  used : ∀ b y, UsedIn p' b y ↔ UsedIn p b y ∧ y.deviceAddr ∉ frees ∨
    ∃ k ∈ keeps, y = keptBuf k.1 k.2 ∧
      ∃ x, UsedIn p b x ∧ x.deviceAddr ∈ frees ∧ Covers x k.1 k.2

/-- Every other byte of what was freed is idle. -/
theorem PartFreed.idle_elsewhere {p p' : DynamicMemPoolBestFit} {frees : List Nat}
    {keeps : List (Nat × Nat)} (hinv : PoolInv p) (h : PartFreed frees keeps p p') {b : Bool}
    {x : DynamicMemBuf} (hx : UsedIn p b x) (hmem : x.deviceAddr ∈ frees) {i : Nat}
    (hlo : x.deviceAddr ≤ i) (hhi : i < x.deviceAddr + x.size)
    (hkeeps : ∀ k ∈ keeps, ¬ (k.1 ≤ i ∧ i < k.1 + k.2)) : InIdle p' b i 1 := by
  obtain ⟨blk, hblk, hxblk⟩ := mem_allBufs.mp hx.1
  have hin := (hinv.mngs b).placed.inside hblk hxblk
  obtain ⟨blk', hblk', hbase, hsize, -⟩ := exists_of_outline (h.same.outline b) hblk
  obtain ⟨z, hz, hzlo, hzhi⟩ := ((h.inv.mngs b).placed.tiles blk' hblk').exists_mem (i := i)
    (by omega) (by omega)
  have hzpool : InPool p' b z := mem_allBufs.mpr ⟨blk', hblk', hz⟩
  refine ⟨z, hzpool, ?_, hzlo, hzhi⟩
  cases hstatus : z.status with
  | idle => rfl
  | eagerFree => exact absurd hstatus ((h.inv.mngs b).noEager z hzpool)
  | used =>
      rcases (h.used b z).mp ⟨hzpool, hstatus⟩ with ⟨hold, hkept⟩ | ⟨k, hk, rfl, -⟩
      · rcases hinv.disjoint hx.1 hold.1 with ⟨-, rfl⟩ | hdisj
        · exact absurd hmem hkept
        · omega
      · exact absurd ⟨hzlo, hzhi⟩ (hkeeps k hk)

theorem freePartTensorMems_spec {p : DynamicMemPoolBestFit} {frees : List Nat}
    {keeps : List (Nat × Nat)} (hinv : PoolInv p) (h : PartAllowed p frees keeps)
    (hsafe : ∀ k ∈ keeps, ¬ Misled p k.1) :
    ∃ p', p.freePartTensorMems frees keeps = some p' ∧ PartFreed frees keeps p p' := by
  obtain ⟨p₁, hp₁, hfreed⟩ := freeAll_spec hinv h.nodup h.used
  obtain ⟨p', hp', hkept⟩ := keepAll_spec hfreed.inv h.apart fun k hk => by
    obtain ⟨b, x, hx, hmem, hcovers⟩ := h.inside k hk
    exact ⟨h.pos k hk, fun hm => hsafe k hk (hfreed.same.misled hm), b,
      (hfreed.idle b x hx.1 (Or.inr ⟨hx.2, hmem⟩)).trans hcovers⟩
  refine ⟨p', ?_, hkept.inv, hfreed.same.trans hkept.same, fun b y => ?_⟩
  · simp only [DynamicMemPoolBestFit.freePartTensorMems, hp₁, Option.bind_eq_bind,
      Option.bind_some]
    exact hp'
  · rw [hkept.used, hfreed.used]
    refine or_congr Iff.rfl (exists_congr fun k => and_congr_right fun hk => ?_)
    rw [and_comm, hfreed.same.inBlock]
    refine and_congr_right fun _ => ⟨fun hin => ?_, ?_⟩
    · obtain ⟨b', x, hx, hmem, hcovers⟩ := h.inside k hk
      obtain rfl := hinv.inBlock_inj hin (hinv.inBlock hx.1 hcovers (h.pos k hk))
      exact ⟨x, hx, hmem, hcovers⟩
    · rintro ⟨x, hx, -, hcovers⟩
      exact hinv.inBlock hx.1 hcovers (h.pos k hk)

end Ccbase.DynamicMem
