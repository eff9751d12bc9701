import Ccbase.DynamicMem.Pool
import Ccbase.Lib.Run

/-!
# Runs of the pool

A client allocates and gives back what it has. Over every run the indexes of both
pools agree with each other and the ranges that the client has are apart. The
ranges of the client are the used bufs at its addresses, so what is followed from
call to call is where the used bufs are.
-/

namespace Ccbase.DynamicMem

open Ccbase.Lib

/-! ## Used bufs over a step -/

section Used

variable {m m' : MemStatusManager} {L R : List (DynamicMemBlock DynamicMemBuf)}
  {blk : DynamicMemBlock DynamicMemBuf} {l r : List DynamicMemBuf} {x y : DynamicMemBuf}
  {split : Nat → Nat → Bool} {size : Nat}

theorem allBufs_setBufs (bufs : List DynamicMemBuf) :
    allBufs (L ++ blk.setBufs bufs :: R) = allBufs L ++ bufs ++ allBufs R := by
  rw [allBufs_append, allBufs_cons, ← List.append_assoc]
  rfl

/-- The buf that a client gets. -/
def usedBuf (split : Nat → Nat → Bool) (size : Nat) (x : DynamicMemBuf) : DynamicMemBuf :=
  { x with status := .used, size := takeSize split size x }

theorem mem_takeBufs : usedBuf split size x ∈ takeBufs split size x := by
  rw [usedBuf, takeBufs, takeSize]
  split <;> simp

theorem le_usedBuf_size (h : size ≤ x.size) : size ≤ (usedBuf split size x).size := by
  show size ≤ takeSize split size x
  rw [takeSize]
  split
  · exact Nat.le_refl size
  · exact h

theorem Taken.used_mem (h : Taken split size m m' L blk R l x r)
    (hy : y ∈ allBufs m.memBlockList) (hused : y.status = .used) :
    y ∈ allBufs m'.memBlockList := by
  have hne : y ≠ x := by
    rintro rfl
    rw [h.idle] at hused
    cases hused
  rw [allBufs_at h.place] at hy
  rw [h.blocks, allBufs_setBufs]
  simp only [List.mem_append, List.mem_cons, hne, false_or] at hy ⊢
  tauto

theorem Taken.new_mem (h : Taken split size m m' L blk R l x r) :
    usedBuf split size x ∈ allBufs m'.memBlockList := by
  rw [h.blocks, allBufs_setBufs]
  simp [mem_takeBufs]

theorem Created.used_mem {addr len streamId : Nat}
    (h : Created split size addr len streamId m m' L R) (hy : y ∈ allBufs m.memBlockList) :
    y ∈ allBufs m'.memBlockList := by
  have hLR : y ∈ allBufs (L ++ R) := (h.perm.symm.flatMap_right _).mem_iff.mp hy
  rw [allBufs_append] at hLR
  rw [h.blocks, allBufs_setBufs]
  simp only [List.mem_append] at hLR ⊢
  tauto

theorem Created.new_mem {addr len streamId : Nat}
    (h : Created split size addr len streamId m m' L R) :
    usedBuf split size (wholeBuf addr len) ∈ allBufs m'.memBlockList := by
  rw [h.blocks, allBufs_setBufs]
  simp [mem_takeBufs]

theorem Freed.used_mem {prev next : Option DynamicMemBuf}
    (h : Freed m m' L blk R l prev x next r) (hy : y ∈ allBufs m.memBlockList)
    (hused : y.status = .used) (hne : y ≠ x) : y ∈ allBufs m'.memBlockList := by
  have hbusy : ∀ {b : Option DynamicMemBuf}, (∀ w ∈ b, w.status = .idle) → y ∉ b.toList := by
    intro b hb hmem
    have hidle := hb y (Option.mem_toList.mp hmem)
    rw [hused] at hidle
    cases hidle
  have hprev := hbusy h.prevIdle
  have hnext := hbusy h.nextIdle
  rw [allBufs_at h.place] at hy
  rw [h.blocks, allBufs_setBufs]
  simp only [List.mem_append, List.mem_cons, hne, hprev, hnext, false_or, or_false] at hy ⊢
  tauto

end Used

/-! ## The client -/

/-- The pool, and what the client has: addresses and the sizes it asked for. -/
structure Client where
  pool : DynamicMemPoolBestFit
  live : List (Nat × Nat)

inductive Call where
  | alloc (size : Nat) (fromPersistentMem : Bool) (streamId : Nat) (d : DeviceAnswer)
  | free (deviceAddr : Nat)
  deriving DecidableEq, Repr

namespace Client

/-- One call, with `need_recycle` false. -/
def exec (t : SplitTests) (c : Client) : Call → Option Client
  | .alloc size fromPersistentMem streamId d =>
      (c.pool.allocTensorMem t size fromPersistentMem false streamId d).map fun r =>
        { pool := r.2
          live := match r.1 with
            | some a => (a, size) :: c.live
            | none => c.live }
  | .free a =>
      (c.pool.freeTensorMem a).map fun p =>
        { pool := p, live := c.live.filter fun e => !decide (e.1 = a) }

/-- A request of up to `2 ^ 62` bytes, answered by a device that hands out what is
apart from all blocks; or the return of an address that the client has. -/
def Allowed (c : Client) : Call → Prop
  | .alloc size _ _ d => size ≤ 2 ^ 62 ∧ Handed d c.pool
  | .free a => a ∈ c.live.map Prod.fst

/-- A call that is allowed and returns. -/
def Step (t : SplitTests) (c : Client) (l : Call) (c' : Client) : Prop :=
  c.exec t l = some c' ∧ c.Allowed l

instance decidableAllowed (c : Client) (l : Call) : Decidable (c.Allowed l) :=
  match l with
  | .alloc size _ _ d => inferInstanceAs (Decidable (size ≤ 2 ^ 62 ∧ Handed d c.pool))
  | .free a => inferInstanceAs (Decidable (a ∈ c.live.map Prod.fst))

/-- A client of a new pool. -/
def start (commonSize persistSize : Nat) : Client :=
  ⟨.fresh commonSize persistSize, []⟩

end Client

/-- The buf of what a client has. -/
def IsLiveBuf (p : DynamicMemPoolBestFit) (e : Nat × Nat) (x : DynamicMemBuf) : Prop :=
  (∃ b, InPool p b x) ∧ x.status = .used ∧ x.deviceAddr = e.1 ∧ e.2 ≤ x.size

/-- `ClientInv c`: the invariant of the pool, and a buf for all that the client has. -/
structure ClientInv (c : Client) : Prop where
  pool : PoolInv c.pool
  bufs : ∀ e ∈ c.live, ∃ x, IsLiveBuf c.pool e x
  nodup : (c.live.map Prod.fst).Nodup

theorem mngInv_empty (unitSize : Nat) : MngInv { unitSize := unitSize } where
  placed := ⟨List.Pairwise.nil, by simp, by simp⟩
  inSpace := by simp [InSpace]
  noEager := by simp [allBufs]
  coalesced := by simp
  indexed _ := List.Perm.refl _

theorem clientInv_start (commonSize persistSize : Nat) :
    ClientInv (Client.start commonSize persistSize) where
  pool :=
    { mngs := Bool.forall_bool.mpr ⟨mngInv_empty commonSize, mngInv_empty persistSize⟩
      apart := by
        intro b blk hblk
        cases b <;> cases hblk
      unit := rfl }
  bufs := by simp [Client.start]
  nodup := List.nodup_nil

/-! ## One call -/

section Call

variable {p p' : DynamicMemPoolBestFit} {t : SplitTests} {size streamId a : Nat}
  {d : DeviceAnswer}

theorem SamePool.inPool (h : SamePool p p') {b : Bool} {x : DynamicMemBuf} (hx : InPool p b x) :
    InPool p' b x := by
  rw [InPool, (h.mngs b).blocks]
  exact hx

/-- Used bufs of both pools stay, if those of the pool that is meant do. -/
theorem Elsewhere.inPool {b : Bool} (he : Elsewhere b p p') {b' : Bool} {x : DynamicMemBuf}
    (hkeep : InPool p b x → InPool p' b x) (hx : InPool p b' x) : InPool p' b' x := by
  by_cases hb : b' = b
  · subst hb
    exact hkeep hx
  · obtain rfl : b' = !b := by
      cases b <;> cases b' <;> simp_all
    rw [InPool, he.other.blocks]
    exact hx

theorem Allocated.keeps (h : Allocated t size streamId d p p' a) {b : Bool} {x : DynamicMemBuf}
    (hx : InPool p b x) (hused : x.status = .used) : InPool p' b x := by
  cases h with
  | taken b' hstream h he => exact he.inPool (fun hx => h.used_mem hx hused) hx
  | created b' hfits h he => exact he.inPool (fun hx => h.used_mem hx) hx

theorem Allocated.new (h : Allocated t size streamId d p p' a) :
    ∃ b x, InPool p' b x ∧ x.status = .used ∧ x.deviceAddr = a ∧ size ≤ x.size := by
  cases h with
  | taken b hstream h he => exact ⟨b, _, h.new_mem, rfl, rfl, le_usedBuf_size h.fits⟩
  | created b hfits h he => exact ⟨b, _, h.new_mem, rfl, rfl, le_usedBuf_size hfits⟩

/-- No used buf has the address that is handed out. -/
theorem Allocated.addr_ne (hinv : PoolInv p) (hask : Asked size) (hd : Handed d p)
    (h : Allocated t size streamId d p p' a) {b : Bool} {y : DynamicMemBuf} (hy : InPool p b y)
    (hused : y.status = .used) : y.deviceAddr ≠ a := by
  intro haddr
  cases h with
  | @taken b' L R blk l r x hstream h he =>
      have hx : InPool p b' x :=
        mem_allBufs.mpr ⟨blk, Placed.mem_at h.place, Placed.mem_buf_at h.place⟩
      obtain ⟨-, rfl⟩ := hinv.eq_of_addr hy hx haddr
      rw [h.idle] at hused
      cases hused
  | created b' hfits h he =>
      have hpos := hinv.size_pos hy
      obtain ⟨blk, hblk, hy⟩ := mem_allBufs.mp hy
      have hin := (hinv.mngs b).placed.inside hblk hy
      have hlen := hask.1
      rcases hd with hd | hd
      · omega
      · have hapart := (hd b).apart blk hblk
        omega

end Call

/-- What a call does, in full. -/
inductive Change (t : SplitTests) (c c' : Client) : Call → Prop where
  | same {size streamId : Nat} {b : Bool} {d : DeviceAnswer} (h : SamePool c.pool c'.pool)
      (hlive : c'.live = c.live) : Change t c c' (.alloc size b streamId d)
  | allocated {size streamId a : Nat} {b : Bool} {d : DeviceAnswer} (hsize : size ≤ 2 ^ 62)
      (hd : Handed d c.pool)
      (h : Allocated t (alignMemorySize size) (streamOf streamId) d c.pool c'.pool a)
      (hlive : c'.live = (a, size) :: c.live) : Change t c c' (.alloc size b streamId d)
  | freed {b : Bool} {L R : List (DynamicMemBlock DynamicMemBuf)}
      {blk : DynamicMemBlock DynamicMemBuf} {l r : List DynamicMemBuf} {x : DynamicMemBuf}
      {prev next : Option DynamicMemBuf}
      (h : Freed (c.pool.mng b) (c'.pool.mng b) L blk R l prev x next r)
      (he : Elsewhere b c.pool c'.pool)
      (hlive : c'.live = c.live.filter fun e => !decide (e.1 = x.deviceAddr)) :
      Change t c c' (.free x.deviceAddr)

namespace ClientInv

variable {c c' : Client} {t : SplitTests}

theorem change (hfind : Splits t.find) (hcreate : Splits t.create) (hinv : ClientInv c) {l : Call}
    (h : c.Step t l c') : Change t c c' l := by
  cases l with
  | alloc size b streamId d =>
      obtain ⟨hexec, hsize, hd⟩ := h
      obtain ⟨⟨a, p'⟩, hr, rfl⟩ := Option.map_eq_some_iff.mp hexec
      rcases (allocTensorMem_spec hfind hcreate hinv.pool hsize hd b streamId).1 _ hr with
        ⟨hnone, hsame⟩ | ⟨a', hsome, halloc⟩
      · obtain rfl : a = none := hnone
        exact .same hsame rfl
      · obtain rfl : a = some a' := hsome
        exact .allocated hsize hd halloc rfl
  | free a =>
      obtain ⟨hexec, hlive⟩ := h
      obtain ⟨e, he, rfl⟩ := List.mem_map.mp hlive
      obtain ⟨x, ⟨b, hx⟩, hused, haddr, -⟩ := hinv.bufs e he
      obtain ⟨p', L, blk, R, l, prev, next, r, hp', hfreed, helse⟩ :=
        freeTensorMem_spec hinv.pool hx hused
      obtain ⟨p'', hp'', rfl⟩ := Option.map_eq_some_iff.mp hexec
      rw [← haddr, hp'] at hp''
      cases hp''
      rw [← haddr]
      exact .freed hfreed helse rfl

/-- What a client keeps stays a buf of its own. -/
theorem isLiveBuf_of_keeps {p p' : DynamicMemPoolBestFit} {e : Nat × Nat} {x : DynamicMemBuf}
    (h : IsLiveBuf p e x) (hkeep : ∀ b, InPool p b x → x.status = .used → InPool p' b x) :
    IsLiveBuf p' e x := by
  obtain ⟨⟨b, hb⟩, hused, haddr, hsize⟩ := h
  exact ⟨⟨b, hkeep b hb hused⟩, hused, haddr, hsize⟩

theorem step (hfind : Splits t.find) (hcreate : Splits t.create) (hinv : ClientInv c) {l : Call}
    (h : c.Step t l c') : ClientInv c' := by
  cases hinv.change hfind hcreate h with
  | same hsame hlive =>
      refine ⟨hinv.pool.same hsame, fun e he => ?_, by rw [hlive]; exact hinv.nodup⟩
      rw [hlive] at he
      obtain ⟨x, hx⟩ := hinv.bufs e he
      exact ⟨x, isLiveBuf_of_keeps hx fun b hb _ => hsame.inPool hb⟩
  | allocated hsize hd halloc hlive =>
      obtain ⟨hask, hle⟩ := asked_alignMemorySize hsize
      refine ⟨halloc.inv hfind hcreate hinv.pool hask hd, fun e he => ?_, ?_⟩
      · rw [hlive] at he
        rcases List.mem_cons.mp he with rfl | he
        · obtain ⟨b', x, hx, hused, haddr, hfits⟩ := halloc.new
          exact ⟨x, ⟨b', hx⟩, hused, haddr, hle.trans hfits⟩
        · obtain ⟨x, hx⟩ := hinv.bufs e he
          exact ⟨x, isLiveBuf_of_keeps hx fun b => halloc.keeps⟩
      · rw [hlive]
        refine List.nodup_cons.mpr ⟨?_, hinv.nodup⟩
        intro hmem
        obtain ⟨e, he, haddr⟩ := List.mem_map.mp hmem
        obtain ⟨x, ⟨b', hx⟩, hused, hxa, -⟩ := hinv.bufs e he
        exact halloc.addr_ne hinv.pool hask hd hx hused (hxa.trans haddr)
  | freed hfreed helse hlive =>
      refine ⟨freed_poolInv hinv.pool hfreed helse, fun e he => ?_, ?_⟩
      · rw [hlive] at he
        obtain ⟨he, hne⟩ := List.mem_filter.mp he
        obtain ⟨y, hy⟩ := hinv.bufs e he
        refine ⟨y, isLiveBuf_of_keeps hy fun b hb hused => ?_⟩
        refine helse.inPool (fun hb => hfreed.used_mem hb hused ?_) hb
        rintro rfl
        simp [hy.2.2.1] at hne
      · rw [hlive]
        exact hinv.nodup.sublist (List.filter_sublist.map _)

theorem run (hfind : Splits t.find) (hcreate : Splits t.create) {commonSize persistSize : Nat}
    {ls : List Call} (h : Run (Client.Step t) (Client.start commonSize persistSize) ls c) :
    ClientInv c :=
  h.state_inv (clientInv_start commonSize persistSize)
    fun _ _ _ hinv hstep => hinv.step hfind hcreate hstep

/-- What a client has is apart. -/
theorem apart (hinv : ClientInv c) :
    c.live.Pairwise fun e e' => ∀ x x', IsLiveBuf c.pool e x → IsLiveBuf c.pool e' x' →
      x.deviceAddr + x.size ≤ x'.deviceAddr ∨ x'.deviceAddr + x'.size ≤ x.deviceAddr := by
  have hnodup := List.pairwise_map.mp hinv.nodup
  refine hnodup.imp ?_
  rintro e e' hne x x' ⟨⟨b, hx⟩, -, haddr, -⟩ ⟨⟨b', hx'⟩, -, haddr', -⟩
  rcases hinv.pool.disjoint hx hx' with ⟨-, rfl⟩ | h
  · exact absurd (haddr.symm.trans haddr') hne
  · exact h

end ClientInv

/-! ## Calls return -/

theorem Freed.unitSize_pool {p p' : DynamicMemPoolBestFit} {b : Bool}
    {L R : List (DynamicMemBlock DynamicMemBuf)} {blk : DynamicMemBlock DynamicMemBuf}
    {l r : List DynamicMemBuf} {x : DynamicMemBuf} {prev next : Option DynamicMemBuf}
    (h : Freed (p.mng b) (p'.mng b) L blk R l prev x next r) (he : Elsewhere b p p') (b' : Bool) :
    (p'.mng b').unitSize = (p.mng b').unitSize := by
  cases b' <;> cases b
  · exact h.unitSize
  · exact he.other.unitSize
  · exact he.other.unitSize
  · exact h.unitSize

theorem unitSize_step {c c' : Client} {t : SplitTests} (hfind : Splits t.find)
    (hcreate : Splits t.create) (hinv : ClientInv c) {l : Call} (h : c.Step t l c') (b : Bool) :
    (c'.pool.mng b).unitSize = (c.pool.mng b).unitSize := by
  cases hinv.change hfind hcreate h with
  | same hsame hlive => exact (hsame.mngs b).unitSize
  | allocated hsize hd halloc hlive => exact halloc.unitSize b
  | freed hfreed helse hlive => exact hfreed.unitSize_pool helse b

theorem unitSize_run {c : Client} {t : SplitTests} (hfind : Splits t.find)
    (hcreate : Splits t.create) {commonSize persistSize : Nat} {ls : List Call}
    (h : Run (Client.Step t) (Client.start commonSize persistSize) ls c) (b : Bool) :
    (c.pool.mng b).unitSize = if b then persistSize else commonSize := by
  refine (h.state_inv (I := fun c => ClientInv c ∧
    (c.pool.mng b).unitSize = if b then persistSize else commonSize) ⟨?_, ?_⟩ ?_).2
  · exact clientInv_start commonSize persistSize
  · cases b <;> rfl
  · rintro c l c' ⟨hinv, hunit⟩ hstep
    exact ⟨hinv.step hfind hcreate hstep, (unitSize_step hfind hcreate hinv hstep b).trans hunit⟩

/-- Every call that a client may make returns, if the units of growth are not
zero. -/
theorem ClientInv.defined {c : Client} {t : SplitTests} (hfind : Splits t.find)
    (hcreate : Splits t.create) (hinv : ClientInv c) (hunits : ∀ b, 0 < (c.pool.mng b).unitSize)
    {l : Call} (h : c.Allowed l) : (c.exec t l).isSome := by
  cases l with
  | alloc size persistent streamId d =>
      have hsome := (allocTensorMem_spec hfind hcreate hinv.pool h.1 h.2 persistent streamId).2
        hunits
      rw [Client.exec, Option.isSome_map]
      exact hsome
  | free a =>
      obtain ⟨e, he, rfl⟩ := List.mem_map.mp h
      obtain ⟨x, ⟨b, hx⟩, hused, haddr, -⟩ := hinv.bufs e he
      obtain ⟨p', L, blk, R, l, prev, next, r, hp', -, -⟩ := freeTensorMem_spec hinv.pool hx hused
      rw [Client.exec, ← haddr, hp']
      rfl

/-! ## The indexes over a run -/

theorem bestFit_indexes_agree {commonSize persistSize : Nat} {ls : List Call} {c : Client}
    (h : Run (Client.Step .plain) (Client.start commonSize persistSize) ls c) :
    (∀ b, ∀ blk ∈ (c.pool.mng b).memBlockList,
      Tiles DynamicMemBuf.deviceAddr DynamicMemBuf.size blk.deviceAddrBase blk.blockAllMemBufMap
        (blk.deviceAddrBase + blk.memBlockSize) ∧
      blk.blockAllMemBufMap.IsChain NotBothIdle) ∧
    (∀ b s, (sizeMapOf (c.pool.mng b).idleMemBufs s).entries.Perm
      (idleEntries s (c.pool.mng b).memBlockList)) ∧
    (∀ e ∈ c.live, ∃ x, IsLiveBuf c.pool e x) ∧
    (c.live.Pairwise fun e e' => ∀ x x', IsLiveBuf c.pool e x → IsLiveBuf c.pool e' x' →
      x.deviceAddr + x.size ≤ x'.deviceAddr ∨ x'.deviceAddr + x'.size ≤ x.deviceAddr) ∧
    (0 < commonSize → 0 < persistSize → ∀ l, c.Allowed l → (c.exec .plain l).isSome) := by
  have hinv : ClientInv c := ClientInv.run splits_isSplit splits_isSplit h
  refine ⟨fun b blk hblk => ?_, fun b => (hinv.pool.mngs b).indexed, hinv.bufs, hinv.apart,
    fun hcommon hpersist l hl => ?_⟩
  · exact ⟨(hinv.pool.mngs b).placed.tiles blk hblk, (hinv.pool.mngs b).coalesced blk hblk⟩
  · refine hinv.defined splits_isSplit splits_isSplit (fun b => ?_) hl
    rw [unitSize_run splits_isSplit splits_isSplit h b]
    cases b
    · exact hcommon
    · exact hpersist

/-- Two allocations from one block, the first of which is given back. -/
theorem bestFit_indexes_agree_split :
    ∃ c, Run (Client.Step .plain) (Client.start 1048576 1048576)
      [.alloc 100 false 3 ⟨1073741824, 4096, 1048576⟩, .alloc 700 false 3 ⟨1073741824, 4096, 0⟩,
        .free 4096] c ∧ c.live = [(4608, 700)] ∧ ∃ x, IsLiveBuf c.pool (4608, 700) x := by
  have hexec : ((Run.exec (Client.exec .plain) Client.Allowed (Client.start 1048576 1048576)
      [.alloc 100 false 3 ⟨1073741824, 4096, 1048576⟩, .alloc 700 false 3 ⟨1073741824, 4096, 0⟩,
        .free 4096]).map Client.live) = some [(4608, 700)] := by decide +kernel
  obtain ⟨c, hc, hlive⟩ := Option.map_eq_some_iff.mp hexec
  have hrun := Run.of_exec hc
  exact ⟨c, hrun, hlive, (bestFit_indexes_agree hrun).2.2.1 _ (by rw [hlive]; simp)⟩

end Ccbase.DynamicMem
