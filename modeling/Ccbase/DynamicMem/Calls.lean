import Ccbase.DynamicMem.FreePart
import Ccbase.DynamicMem.Continuous

/-!
# All calls of the pool

The public operations, with everything a client may pass: any address to free, any
mix of `need_recycle`, lists of sizes, ranges to keep. Some calls do what they
should only under a condition on the state, which `Meets` states for each; over a
run of such calls the invariant holds.
-/

namespace Ccbase.DynamicMem

open Ccbase.Lib

/-! ## The calls -/

def MemStatusManager.clear (m : MemStatusManager) : MemStatusManager :=
  { m with memBlockList := [], idleMemBufs := .empty, eagerFreeMemBufs := .empty }

namespace DynamicMemPoolBestFit

def setMemAllocUintSize (commonSize persistSize : Nat) (p : DynamicMemPoolBestFit) :
    DynamicMemPoolBestFit :=
  { p with
    persistentMem := { p.persistentMem with unitSize := persistSize }
    commonMem := { p.commonMem with unitSize := commonSize }
    configUnitSize := commonSize }

def releaseDeviceRes (p : DynamicMemPoolBestFit) : DynamicMemPoolBestFit :=
  { p with persistentMem := p.persistentMem.clear, commonMem := p.commonMem.clear }

end DynamicMemPoolBestFit

inductive PoolCall where
  | alloc (size : Nat) (fromPersistentMem needRecycle : Bool) (streamId : Nat) (d : DeviceAnswer)
  | allocContinuous (sizeList : List Nat) (streamId : Nat) (d : DeviceAnswer)
  | free (deviceAddr : Nat)
  | freePart (freeAddrs : List Nat) (keeps : List (Nat × Nat))
  | setMemAllocUintSize (commonSize persistSize : Nat)
  | releaseDeviceRes
  deriving DecidableEq, Repr

/-- An idle buf starts at the address. -/
def IdleAt (p : DynamicMemPoolBestFit) (a : Nat) : Prop :=
  ∃ b, ∃ x ∈ allBufs (p.mng b).memBlockList, x.status = .idle ∧ x.deviceAddr = a

instance decidableIdleAt (p : DynamicMemPoolBestFit) (a : Nat) : Decidable (IdleAt p a) :=
  inferInstanceAs (Decidable (∃ b, ∃ x ∈ allBufs (p.mng b).memBlockList, _ ∧ _))

/-- A range is in one of the bufs at the addresses. -/
def InFreed (p : DynamicMemPoolBestFit) (frees : List Nat) (k : Nat × Nat) : Prop :=
  ∃ b, ∃ x ∈ allBufs (p.mng b).memBlockList, x.status = .used ∧ x.deviceAddr ∈ frees ∧
    Covers x k.1 k.2

instance decidableInFreed (p : DynamicMemPoolBestFit) (frees : List Nat) (k : Nat × Nat) :
    Decidable (InFreed p frees k) :=
  inferInstanceAs (Decidable (∃ b, ∃ x ∈ allBufs (p.mng b).memBlockList, _ ∧ _ ∧ _))

namespace Client

/-- A client of a pool that has not been used, with either value of the static flag. -/
def startAt (recycled : Bool) (commonSize persistSize : Nat) : Client :=
  ⟨{ DynamicMemPoolBestFit.fresh commonSize persistSize with initRecycleMemory := recycled }, []⟩

/-- What the client has after a call is what is returned to it and not freed. -/
def call (t : SplitTests) (c : Client) : PoolCall → Option Client
  | .alloc size fromPersistentMem needRecycle streamId d =>
      (c.pool.allocTensorMem t size fromPersistentMem needRecycle streamId d).map fun r =>
        { pool := r.2
          live := match r.1 with
            | some a => (a, size) :: c.live
            | none => c.live }
  | .allocContinuous sizeList streamId d =>
      (c.pool.allocContinuousTensorMem t sizeList streamId d).map fun r =>
        { pool := r.2, live := r.1.zip sizeList ++ c.live }
  | .free a =>
      (c.pool.freeTensorMem a).map fun p =>
        { pool := p, live := c.live.filter fun e => !decide (e.1 = a) }
  | .freePart freeAddrs keeps =>
      (c.pool.freePartTensorMems freeAddrs keeps).map fun p =>
        { pool := p, live := keeps ++ c.live.filter fun e => !decide (e.1 ∈ freeAddrs) }
  | .setMemAllocUintSize commonSize persistSize =>
      some { c with pool := c.pool.setMemAllocUintSize commonSize persistSize }
  | .releaseDeviceRes => some { pool := c.pool.releaseDeviceRes, live := [] }

/-- What a client may ask for: sizes up to `2 ^ 62`, answered by a device that hands out
what is apart from all blocks; to free any address; to free part of bufs that it has. -/
def MayCall (c : Client) : PoolCall → Prop
  | .alloc size _ _ _ d => size ≤ 2 ^ 62 ∧ Handed d c.pool
  | .allocContinuous sizeList _ d =>
      sizeList ≠ [] ∧ (∀ s ∈ sizeList, 0 < s) ∧ sizeList.sum < 2 ^ 62 ∧ Handed d c.pool
  | .free _ => True
  | .freePart freeAddrs keeps =>
      freeAddrs.Nodup ∧ (∀ a ∈ freeAddrs, a ∈ c.live.map Prod.fst) ∧ (∀ k ∈ keeps, 0 < k.2) ∧
        keeps.Pairwise RangesApart ∧ ∀ k ∈ keeps, InFreed c.pool freeAddrs k
  | .setMemAllocUintSize _ _ => True
  | .releaseDeviceRes => True

/-- What the state must be for a call to do what it should. -/
def Meets (c : Client) : PoolCall → Prop
  | .allocContinuous sizeList streamId d =>
      sizeList.sum < 2 ^ 31 ∧ ¬ Mislaid sizeList.sum streamId d c.pool
  | .free a => ¬ IdleAt c.pool a
  | .freePart _ keeps => ∀ k ∈ keeps, ¬ Misled c.pool k.1
  | _ => True

/-- A call that a client may make, and that returns. -/
def CallStep (t : SplitTests) (c : Client) (l : PoolCall) (c' : Client) : Prop :=
  c.call t l = some c' ∧ c.MayCall l

/-- A call under its condition. -/
def MeetStep (t : SplitTests) (c : Client) (l : PoolCall) (c' : Client) : Prop :=
  c.call t l = some c' ∧ c.MayCall l ∧ c.Meets l

instance decidableMayCall (c : Client) (l : PoolCall) : Decidable (c.MayCall l) :=
  match l with
  | .alloc size _ _ _ d => inferInstanceAs (Decidable (size ≤ 2 ^ 62 ∧ Handed d c.pool))
  | .allocContinuous sizeList _ d => inferInstanceAs (Decidable
      (sizeList ≠ [] ∧ (∀ s ∈ sizeList, 0 < s) ∧ sizeList.sum < 2 ^ 62 ∧ Handed d c.pool))
  | .free _ => inferInstanceAs (Decidable True)
  | .freePart freeAddrs keeps => inferInstanceAs (Decidable
      (freeAddrs.Nodup ∧ (∀ a ∈ freeAddrs, a ∈ c.live.map Prod.fst) ∧ (∀ k ∈ keeps, 0 < k.2) ∧
        keeps.Pairwise RangesApart ∧ ∀ k ∈ keeps, InFreed c.pool freeAddrs k))
  | .setMemAllocUintSize _ _ => inferInstanceAs (Decidable True)
  | .releaseDeviceRes => inferInstanceAs (Decidable True)

instance decidableMeets (c : Client) (l : PoolCall) : Decidable (c.Meets l) :=
  match l with
  | .alloc .. => inferInstanceAs (Decidable True)
  | .allocContinuous sizeList streamId d => inferInstanceAs (Decidable
      (sizeList.sum < 2 ^ 31 ∧ ¬ Mislaid sizeList.sum streamId d c.pool))
  | .free a => inferInstanceAs (Decidable (¬ IdleAt c.pool a))
  | .freePart _ keeps => inferInstanceAs (Decidable (∀ k ∈ keeps, ¬ Misled c.pool k.1))
  | .setMemAllocUintSize _ _ => inferInstanceAs (Decidable True)
  | .releaseDeviceRes => inferInstanceAs (Decidable True)

end Client

/-! ## A free of any address -/

section Free

variable {p : DynamicMemPoolBestFit} {a : Nat}

/-- An address at which no buf starts is nowhere. -/
theorem freeTensorMem_missing (h : ∀ b x, InPool p b x → x.deviceAddr ≠ a) :
    p.freeTensorMem a = some p := by
  have hnone : ∀ b, DynamicMemPoolBestFit.findStrict a (p.mng b) = none := by
    intro b
    cases hfound : DynamicMemPoolBestFit.findStrict a (p.mng b) with
    | none => rfl
    | some found =>
        obtain ⟨blk, l, x, r⟩ := found
        obtain ⟨hblk, hbufs, haddr⟩ := of_findStrict hfound
        exact absurd haddr (h b x (mem_allBufs.mpr ⟨blk, hblk, by rw [hbufs]; simp⟩))
  have hcommon : DynamicMemPoolBestFit.findStrict a p.commonMem = none := hnone false
  have hpersistent : DynamicMemPoolBestFit.findStrict a p.persistentMem = none := hnone true
  rw [DynamicMemPoolBestFit.freeTensorMem, DynamicMemPoolBestFit.findByStrictAddr, hcommon,
    hpersistent]
  rfl

theorem PoolInv.idle_of_not_used (hinv : PoolInv p) {b : Bool} {x : DynamicMemBuf}
    (hx : InPool p b x) (hnot : x.status ≠ .used) : x.status = .idle := by
  cases hstatus : x.status with
  | idle => rfl
  | used => exact absurd hstatus hnot
  | eagerFree => exact absurd hstatus ((hinv.mngs b).noEager x hx)

theorem combineNext_busy {s : Nat} {x : DynamicMemBuf} {after : List DynamicMemBuf}
    {c : OrdMap Nat SizeMapMemBuf} (h : ∀ y ∈ after.head?, y.status ≠ .idle) :
    MemStatusManager.combineNext s x after c = some (x, after, c) := by
  cases after with
  | nil => rfl
  | cons y after => rw [MemStatusManager.combineNext, if_neg (h y rfl)]

theorem combinePrev_busy {s : Nat} {x : DynamicMemBuf} {before : List DynamicMemBuf}
    {c : OrdMap Nat SizeMapMemBuf} (h : ∀ w ∈ before.getLast?, w.status ≠ .idle) :
    MemStatusManager.combinePrev s before x c = some (before, x, c) := by
  rw [MemStatusManager.combinePrev]
  cases hlast : before.getLast? with
  | none => rfl
  | some w =>
      have hw := h w hlast
      simp only [if_neg hw]

/-- An idle buf that is freed is entered into the index once more. -/
theorem combineMemBuf_idle {m m' : MemStatusManager} {L R : List (DynamicMemBlock DynamicMemBuf)}
    {blk : DynamicMemBlock DynamicMemBuf} {l r : List DynamicMemBuf} {x : DynamicMemBuf}
    (hinv : MngInv m) (hat : At m.memBlockList L blk R l x r) (hidle : x.status = .idle)
    (h : m.combineMemBuf blk (l, x, r) = some m') :
    m'.idleMemBufs = addMemBuf m.idleMemBufs x blk.streamId := by
  obtain ⟨-, -, hlx, hxr⟩ := isChain_middle (hinv.chain_at hat)
  have hx : { x with status := .idle } = x := by rw [← hidle]
  simp only [MemStatusManager.combineMemBuf, hx, Option.bind_eq_bind, Option.bind_some,
    combineNext_busy fun y hy hy' => hxr y hy ⟨hidle, hy'⟩,
    combinePrev_busy fun w hw hw' => hlx w hw ⟨hw', hidle⟩] at h
  cases h
  rfl

theorem freeTensorMem_idle (hinv : PoolInv p) (h : IdleAt p a) : p.freeTensorMem a ≠ some p := by
  obtain ⟨b, x, hx, hidle, rfl⟩ := h
  obtain ⟨blk, hblk, hxblk⟩ := mem_allBufs.mp hx
  obtain ⟨L, R, l, r, hat⟩ := exists_at hblk hxblk
  intro hfree
  rw [DynamicMemPoolBestFit.freeTensorMem, findByStrictAddr_spec hinv hat] at hfree
  obtain ⟨m', hm', heq⟩ := Option.map_eq_some_iff.mp hfree
  have hsame : m' = p.mng b := by
    rw [← DynamicMemPoolBestFit.mng_setMng_same b m' p, heq]
  have hindex := combineMemBuf_idle (hinv.mngs b) hat hidle hm'
  rw [hsame] at hindex
  have hadd := sizeMapOf_addMemBuf (p.mng b).idleMemBufs x blk.streamId blk.streamId
  rw [← hindex, if_pos rfl] at hadd
  have hlength := (MultiMap.perm_emplace (sizeMapOf (p.mng b).idleMemBufs blk.streamId) x.size
    x.deviceAddr).length_eq
  rw [← hadd, List.length_cons] at hlength
  omega

/-- A free of what is not in use changes nothing exactly if no idle buf is there. -/
theorem freeTensorMem_unchanged_iff (hinv : PoolInv p)
    (hnot : ¬ ∃ b x, UsedIn p b x ∧ x.deviceAddr = a) :
    p.freeTensorMem a = some p ↔ ¬ IdleAt p a := by
  constructor
  · exact fun h hidle => freeTensorMem_idle hinv hidle h
  · intro h
    refine freeTensorMem_missing fun b x hx haddr => ?_
    have hbusy : x.status ≠ .used := fun hused => hnot ⟨b, x, ⟨hx, hused⟩, haddr⟩
    exact h ⟨b, x, hx, hinv.idle_of_not_used hx hbusy, haddr⟩

end Free

/-! ## The invariant over a call -/

namespace ClientInv

variable {c : Client} {t : SplitTests} {p' : DynamicMemPoolBestFit}

theorem of_used {live : List (Nat × Nat)} (hpool : PoolInv p')
    (hbufs : ∀ e ∈ live, ∃ b x, UsedIn p' b x ∧ x.deviceAddr = e.1 ∧ e.2 ≤ x.size)
    (hnodup : (live.map Prod.fst).Nodup) : ClientInv ⟨p', live⟩ := by
  refine ⟨hpool, fun e he => ?_, hnodup⟩
  obtain ⟨b, x, hx, haddr, hsize⟩ := hbufs e he
  exact ⟨x, ⟨b, hx.1⟩, hx.2, haddr, hsize⟩

theorem used (hinv : ClientInv c) {e : Nat × Nat} (he : e ∈ c.live) :
    ∃ b x, UsedIn c.pool b x ∧ x.deviceAddr = e.1 ∧ e.2 ≤ x.size := by
  obtain ⟨x, ⟨b, hx⟩, hused, haddr, hsize⟩ := hinv.bufs e he
  exact ⟨b, x, ⟨hx, hused⟩, haddr, hsize⟩

/-- What a client has is in ranges that do not meet. -/
theorem rangesApart (hinv : ClientInv c) : c.live.Pairwise RangesApart := by
  refine (List.pairwise_map.mp hinv.nodup).imp_of_mem ?_
  intro e e' he he' hne
  obtain ⟨b, x, hx, haddr, hsize⟩ := hinv.used he
  obtain ⟨b', x', hx', haddr', hsize'⟩ := hinv.used he'
  rw [RangesApart]
  rcases hinv.pool.disjoint hx.1 hx'.1 with ⟨-, rfl⟩ | hdisj
  · exact absurd (haddr.symm.trans haddr') hne
  · omega

/-- A buf goes into use and is returned to nobody. -/
theorem found (hfind : Splits t.find) (hcreate : Splits t.create) (hinv : ClientInv c)
    {size streamId a : Nat} {d : DeviceAnswer} (hask : Asked size) (hd : Handed d c.pool)
    (h : Allocated t size streamId d c.pool p' a) : ClientInv ⟨p', c.live⟩ := by
  refine of_used (h.inv hfind hcreate hinv.pool hask hd) (fun e he => ?_) hinv.nodup
  obtain ⟨b, x, hx, haddr, hsize⟩ := hinv.used he
  exact ⟨b, x, ⟨h.keeps hx.1 hx.2, hx.2⟩, haddr, hsize⟩

/-- What the client has is at other addresses than what an allocation returns. -/
theorem not_mem_live (hinv : ClientInv c) {size streamId a : Nat} {d : DeviceAnswer}
    (hask : Asked size) (hd : Handed d c.pool) (h : Allocated t size streamId d c.pool p' a) :
    a ∉ c.live.map Prod.fst := by
  intro hmem
  obtain ⟨e, he, rfl⟩ := List.mem_map.mp hmem
  obtain ⟨b, x, hx, haddr, -⟩ := hinv.used he
  exact h.addr_ne hinv.pool hask hd hx.1 hx.2 haddr

theorem same (hinv : ClientInv c) (h : SamePool c.pool p') : ClientInv ⟨p', c.live⟩ := by
  refine of_used (hinv.pool.same h) (fun e he => ?_) hinv.nodup
  obtain ⟨b, x, hx, haddr, hsize⟩ := hinv.used he
  exact ⟨b, x, (h.usedIn b x).mpr hx, haddr, hsize⟩

theorem allocResult (hfind : Splits t.find) (hcreate : Splits t.create) (hinv : ClientInv c)
    {size streamId : Nat} {d : DeviceAnswer} {r : Option Nat × DynamicMemPoolBestFit}
    (hsize : size ≤ 2 ^ 62) (hd : Handed d c.pool)
    (h : AllocResult t (alignMemorySize size) streamId d c.pool r) :
    ClientInv { pool := r.2
                live := match r.1 with
                  | some a => (a, size) :: c.live
                  | none => c.live } := by
  obtain ⟨hask, hle⟩ := asked_alignMemorySize hsize
  obtain ⟨a, p'⟩ := r
  rcases h with ⟨hnone, hsame⟩ | ⟨a', hsome, halloc⟩
  · obtain rfl : a = none := hnone
    exact hinv.same hsame
  · obtain rfl : a = some a' := hsome
    have hkept := hinv.found hfind hcreate hask hd halloc
    refine of_used hkept.pool (fun e he => ?_) ?_
    · rcases List.mem_cons.mp he with rfl | he
      · obtain ⟨b, x, hx, haddr, hfits, -⟩ := halloc.usedIn
        exact ⟨b, x, hx, haddr, hle.trans hfits⟩
      · exact hkept.used he
    · exact List.nodup_cons.mpr ⟨hinv.not_mem_live hask hd halloc, hinv.nodup⟩

theorem allocTensor (hfind : Splits t.find) (hcreate : Splits t.create) (hinv : ClientInv c)
    {size streamId : Nat} {b needRecycle : Bool} {d : DeviceAnswer}
    {r : Option Nat × DynamicMemPoolBestFit} (hsize : size ≤ 2 ^ 62) (hd : Handed d c.pool)
    (h : AllocTensorResult t (alignMemorySize size) streamId b needRecycle d c.pool r) :
    ClientInv { pool := r.2
                live := match r.1 with
                  | some a => (a, size) :: c.live
                  | none => c.live } := by
  obtain ⟨hask, -⟩ := asked_alignMemorySize hsize
  cases h with
  | plain _ h => exact hinv.allocResult hfind hcreate hsize hd h
  | gaveUp _ _ hfound _ hd₁ h =>
      have hinv₁ := hinv.found hfind hcreate hask hd (hfound.allocated d)
      exact hinv₁.allocResult hfind hcreate hsize hd₁ h

/-- The ranges of the sizes are in the buf that was taken, and what the client had is not. -/
theorem continuous (hfind : Splits t.find) (hcreate : Splits t.create) (hinv : ClientInv c)
    {sizes : List Nat} {streamId : Nat} {d : DeviceAnswer}
    {res : List Nat × DynamicMemPoolBestFit} (hpos : ∀ s ∈ sizes, 0 < s)
    (hsize : sizes.sum ≤ 2 ^ 62) (hd : Handed d c.pool)
    (h : ContinuousResult t sizes streamId d c.pool res) :
    ClientInv { pool := res.2, live := res.1.zip sizes ++ c.live } := by
  obtain ⟨hask, -⟩ := asked_alignMemorySize hsize
  obtain ⟨addrs, p'⟩ := res
  cases h with
  | empty hnone hsame =>
      obtain rfl : addrs = [] := hnone
      exact hinv.same hsame
  | @ranges p₁ b L R blk l r x halloc hfits h he haddrs =>
      obtain rfl : addrs = (rangesFrom x.deviceAddr sizes).map Prod.fst := haddrs
      have hinv₁ := hinv.found hfind hcreate hask hd halloc
      have hx : UsedIn p₁ b x :=
        ⟨mem_allBufs.mpr ⟨blk, Placed.mem_at h.place, Placed.mem_buf_at h.place⟩, h.used⟩
      have hpool : PoolInv p' := by
        refine hinv₁.pool.step he (h.inv (hinv₁.pool.mngs b)) ?_ h.unitSize
        rw [h.blocks]
        exact apart_setBufs h.place.blocks (hinv₁.pool.apart b)
      -- what is in use then: what was, without `x`, and the bufs for the sizes
      have hused : ∀ {b' y}, UsedIn p₁ b' y → y.deviceAddr ≠ x.deviceAddr → UsedIn p' b' y := by
        intro b' y hy hne
        refine ⟨he.inPool (fun hb => ?_) hy.1, hy.2⟩
        refine (h.used_iff (hinv₁.pool.mngs b)).mpr (Or.inl ⟨hb, ?_⟩)
        rintro rfl
        exact hne rfl
      have hend := end_le_of_at (hinv₁.pool.mngs b).placed (hinv₁.pool.mngs b).inSpace h.place
      have hnew : ∀ e ∈ rangesFrom x.deviceAddr sizes,
          ∃ b y, UsedIn p' b y ∧ y.deviceAddr = e.1 ∧ e.2 ≤ y.size := by
        intro e hmem
        obtain ⟨y, hy, haddr, hsize⟩ := exists_continuousBuf (x.size - sizes.sum)
          hend.1 hpos (by omega) e hmem
        refine ⟨b, y, ⟨?_, h.allUsed y hy⟩, haddr, hsize⟩
        exact (h.used_iff (hinv₁.pool.mngs b)).mpr (Or.inr hy)
      rw [zip_rangesFrom]
      have htiles := tiles_rangesFrom (a := x.deviceAddr) hpos
      refine of_used hpool (fun e hmem => ?_) ?_
      · rcases List.mem_append.mp hmem with hmem | hmem
        · exact hnew e hmem
        · obtain ⟨b', y, hy, haddr, hsize⟩ := hinv₁.used hmem
          refine ⟨b', y, hused hy ?_, haddr, hsize⟩
          rw [haddr]
          intro heq
          exact hinv.not_mem_live hask hd halloc (List.mem_map.mpr ⟨e, hmem, heq⟩)
      · rw [List.map_append]
        refine List.nodup_append.mpr ⟨?_, hinv.nodup, ?_⟩
        · refine List.pairwise_map.mpr (htiles.pairwise.imp_of_mem fun {e e'} he _ hle heq => ?_)
          have hpos' := (htiles.bounds he).2.2
          omega
        · intro a ha a' ha' heq
          obtain ⟨e, he, rfl⟩ := List.mem_map.mp ha
          obtain ⟨e', he', rfl⟩ := List.mem_map.mp ha'
          have hin := htiles.bounds he
          obtain ⟨b', y, hy, haddr, -⟩ := hinv₁.used he'
          have hpos' := hinv₁.pool.size_pos hy.1
          rcases hinv₁.pool.disjoint hy.1 hx.1 with ⟨-, rfl⟩ | hdisj
          · exact hinv.not_mem_live hask hd halloc (List.mem_map.mpr ⟨e', he', haddr.symm⟩)
          · omega

/-- A free of an address at which no idle buf starts. -/
theorem freed (hinv : ClientInv c) {a : Nat} (hidle : ¬ IdleAt c.pool a)
    (h : c.pool.freeTensorMem a = some p') :
    ClientInv { pool := p', live := c.live.filter fun e => !decide (e.1 = a) } := by
  have hnodup : ((c.live.filter fun e => !decide (e.1 = a)).map Prod.fst).Nodup :=
    hinv.nodup.sublist (List.filter_sublist.map _)
  have hkeep : ∀ e ∈ c.live.filter fun e => !decide (e.1 = a), e ∈ c.live ∧ e.1 ≠ a := by
    intro e he
    obtain ⟨he, hne⟩ := List.mem_filter.mp he
    exact ⟨he, by simpa using hne⟩
  by_cases hused : ∃ b x, UsedIn c.pool b x ∧ x.deviceAddr = a
  · obtain ⟨b, x, ⟨hx, hxused⟩, rfl⟩ := hused
    obtain ⟨p₁, L, blk, R, l, prev, next, r, hp₁, hfreed, he⟩ :=
      freeTensorMem_spec hinv.pool hx hxused
    obtain rfl : p₁ = p' := by
      rw [hp₁] at h
      cases h
      rfl
    refine of_used (freed_poolInv hinv.pool hfreed he) (fun e hmem => ?_) hnodup
    obtain ⟨hmem, hne⟩ := hkeep e hmem
    obtain ⟨b', y, hy, haddr, hsize⟩ := hinv.used hmem
    exact ⟨b', y, (hfreed.usedIn hinv.pool he b' y).mpr ⟨hy, haddr ▸ hne⟩, haddr, hsize⟩
  · rw [(freeTensorMem_unchanged_iff hinv.pool hused).mpr hidle] at h
    cases h
    exact of_used hinv.pool (fun e hmem => hinv.used (hkeep e hmem).1) hnodup

/-- What a client may pass to `FreePartTensorMems` is allowed for the pool. -/
theorem partAllowed (hinv : ClientInv c) {frees : List Nat} {keeps : List (Nat × Nat)}
    (h : c.MayCall (.freePart frees keeps)) : PartAllowed c.pool frees keeps := by
  obtain ⟨hnodup, hlive, hpos, hapart, hinside⟩ := h
  refine ⟨hnodup, fun a ha => ?_, hpos, hapart, fun k hk => ?_⟩
  · obtain ⟨e, he, rfl⟩ := List.mem_map.mp (hlive a ha)
    obtain ⟨b, x, hx, haddr, -⟩ := hinv.used he
    exact ⟨b, x, hx, haddr⟩
  · obtain ⟨b, x, hx, hused, hmem, hcovers⟩ := hinside k hk
    exact ⟨b, x, ⟨hx, hused⟩, hmem, hcovers⟩

theorem freedPart (hinv : ClientInv c) {frees : List Nat} {keeps : List (Nat × Nat)}
    (hallowed : PartAllowed c.pool frees keeps) (h : PartFreed frees keeps c.pool p') :
    ClientInv { pool := p', live := keeps ++ c.live.filter fun e => !decide (e.1 ∈ frees) } := by
  have hkeep : ∀ e ∈ c.live.filter fun e => !decide (e.1 ∈ frees), e ∈ c.live ∧ e.1 ∉ frees := by
    intro e he
    obtain ⟨he, hne⟩ := List.mem_filter.mp he
    exact ⟨he, by simpa using hne⟩
  refine of_used h.inv (fun e hmem => ?_) ?_
  · rcases List.mem_append.mp hmem with hmem | hmem
    · obtain ⟨b, x, hx, hfree, hcovers⟩ := hallowed.inside e hmem
      exact ⟨b, keptBuf e.1 e.2, (h.used b _).mpr (Or.inr ⟨e, hmem, rfl, x, hx, hfree, hcovers⟩),
        rfl, Nat.le_refl _⟩
    · obtain ⟨hmem, hfree⟩ := hkeep e hmem
      obtain ⟨b, y, hy, haddr, hsize⟩ := hinv.used hmem
      exact ⟨b, y, (h.used b y).mpr (Or.inl ⟨hy, haddr ▸ hfree⟩), haddr, hsize⟩
  · rw [List.map_append]
    refine List.nodup_append.mpr
      ⟨?_, hinv.nodup.sublist (List.filter_sublist.map _), fun a ha a' ha' heq => ?_⟩
    · refine List.pairwise_map.mpr (hallowed.apart.imp_of_mem fun {k k'} hk hk' hapart heq => ?_)
      have hpos := hallowed.pos k hk
      have hpos' := hallowed.pos k' hk'
      rw [RangesApart] at hapart
      omega
    · obtain ⟨k, hk, rfl⟩ := List.mem_map.mp ha
      obtain ⟨e, he, rfl⟩ := List.mem_map.mp ha'
      obtain ⟨he, hfree⟩ := hkeep e he
      obtain ⟨b, x, hx, hxfree, hcovers⟩ := hallowed.inside k hk
      obtain ⟨b', y, hy, haddr, -⟩ := hinv.used he
      have hpos := hallowed.pos k hk
      have hypos := hinv.pool.size_pos hy.1
      rw [Covers] at hcovers
      rcases hinv.pool.disjoint hx.1 hy.1 with ⟨-, rfl⟩ | hdisj
      · exact hfree (haddr ▸ hxfree)
      · omega

theorem mngInv_unitSize {m : MemStatusManager} (h : MngInv m) (unitSize : Nat) :
    MngInv { m with unitSize := unitSize } :=
  ⟨h.placed, h.inSpace, h.noEager, h.coalesced, h.indexed⟩

theorem setUnits (hinv : ClientInv c) (commonSize persistSize : Nat) :
    ClientInv ⟨c.pool.setMemAllocUintSize commonSize persistSize, c.live⟩ := by
  have hin : ∀ b x, UsedIn c.pool b x →
      UsedIn (c.pool.setMemAllocUintSize commonSize persistSize) b x :=
    Bool.forall_bool.mpr ⟨fun _ h => h, fun _ h => h⟩
  refine of_used ⟨?_, ?_, rfl⟩ (fun e he => ?_) hinv.nodup
  · exact Bool.forall_bool.mpr ⟨mngInv_unitSize (hinv.pool.mngs false) commonSize,
      mngInv_unitSize (hinv.pool.mngs true) persistSize⟩
  · exact Bool.forall_bool.mpr ⟨hinv.pool.apart false, hinv.pool.apart true⟩
  · obtain ⟨b, x, hx, haddr, hsize⟩ := hinv.used he
    exact ⟨b, x, hin b x hx, haddr, hsize⟩

theorem mngInv_clear (m : MemStatusManager) : MngInv m.clear :=
  ⟨⟨List.Pairwise.nil, fun _ h => (List.not_mem_nil h).elim, fun _ h => (List.not_mem_nil h).elim⟩,
    fun _ h => (List.not_mem_nil h).elim, fun _ h => (List.not_mem_nil h).elim,
    fun _ h => (List.not_mem_nil h).elim, fun _ => List.Perm.refl _⟩

theorem released (hinv : ClientInv c) : ClientInv ⟨c.pool.releaseDeviceRes, []⟩ := by
  refine of_used ⟨?_, fun b blk hblk => ?_, hinv.pool.unit⟩ (fun e he => ?_) List.nodup_nil
  · exact Bool.forall_bool.mpr ⟨mngInv_clear _, mngInv_clear _⟩
  · cases b <;> cases hblk
  · cases he

/-- Every call under its condition keeps the invariant. -/
theorem callStep (hfind : Splits t.find) (hcreate : Splits t.create) (hinv : ClientInv c)
    {l : PoolCall} {c' : Client} (h : c.MeetStep t l c') : ClientInv c' := by
  obtain ⟨hcall, hmay, hmeets⟩ := h
  cases l with
  | alloc size b needRecycle streamId d =>
      obtain ⟨r, hr, rfl⟩ := Option.map_eq_some_iff.mp hcall
      exact hinv.allocTensor hfind hcreate hmay.1 hmay.2
        ((allocTensorMem_result hfind hcreate hinv.pool hmay.1 hmay.2 b needRecycle
          streamId).1 r hr)
  | allocContinuous sizes streamId d =>
      obtain ⟨hne, hpos, hsum, hd⟩ := hmay
      obtain ⟨r, hr, rfl⟩ := Option.map_eq_some_iff.mp hcall
      exact hinv.continuous hfind hcreate hpos hsum.le hd
        ((allocContinuousTensorMem_spec hfind hcreate hinv.pool hne hpos hmeets.1 hd hmeets.2).1 r
          hr)
  | free a =>
      obtain ⟨p', hp', rfl⟩ := Option.map_eq_some_iff.mp hcall
      exact hinv.freed hmeets hp'
  | freePart frees keeps =>
      obtain ⟨p', hp', rfl⟩ := Option.map_eq_some_iff.mp hcall
      have hallowed := hinv.partAllowed hmay
      obtain ⟨p₁, hp₁, hfreed⟩ := freePartTensorMems_spec hinv.pool hallowed hmeets
      rw [hp₁] at hp'
      cases hp'
      exact hinv.freedPart hallowed hfreed
  | setMemAllocUintSize commonSize persistSize =>
      cases hcall
      exact hinv.setUnits commonSize persistSize
  | releaseDeviceRes =>
      cases hcall
      exact hinv.released

theorem startAt (recycled : Bool) (commonSize persistSize : Nat) :
    ClientInv (Client.startAt recycled commonSize persistSize) := by
  refine of_used ⟨?_, fun b blk hblk => ?_, rfl⟩ (fun e he => ?_) List.nodup_nil
  · exact Bool.forall_bool.mpr ⟨mngInv_empty commonSize, mngInv_empty persistSize⟩
  · cases b <;> cases hblk
  · cases he

theorem callRun (hfind : Splits t.find) (hcreate : Splits t.create) {recycled : Bool}
    {commonSize persistSize : Nat} {ls : List PoolCall}
    (h : Run (Client.MeetStep t) (Client.startAt recycled commonSize persistSize) ls c) :
    ClientInv c :=
  h.state_inv (startAt recycled commonSize persistSize)
    fun _ _ _ hinv hstep => hinv.callStep hfind hcreate hstep

end ClientInv

end Ccbase.DynamicMem
