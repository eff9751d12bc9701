import Ccbase.Memory.Allocator

/-!
# The invariant of an allocator

`AllocInv` ties the linked buffers of an allocator to a layout: for each block
the list of its buffers in address order. The buffers of a block tile it, the
blocks do not overlap, and the two ordered sets hold buffers of their status
only, and all non-empty ones. Buffers of size `0` are not excluded; two of
them may have the same key, and then a set holds one of the two at most.

While a method works on a buffer, that buffer is in neither set. The last
argument of `AllocInv` is this detached buffer, for which the sets promise
nothing; the primitive edits below all act on a detached buffer.
-/

namespace Ccbase.Memory

open Ccbase.Lib Chain

/-- A buffer without its links. -/
structure BufData extends EventBase where
  size : Nat
  addr : Nat
  streamId : Nat
  memBlock : Nat
  status : MemBufStatus

def MemBuf.data (b : MemBuf) : BufData :=
  { toEventBase := b.toEventBase, size := b.size, addr := b.addr,
    streamId := b.streamId, memBlock := b.memBlock, status := b.status }

/-- The buffers in memory, links forgotten. -/
def dataOf (bufs : Heap MemBuf) : Heap BufData := bufs.map MemBuf.data

theorem dataOf_get {bufs : Heap MemBuf} {p : Nat} {b : MemBuf} (h : bufs.get p = some b) :
    (dataOf bufs).get p = some b.data := by
  simp [dataOf, h]

theorem dataOf_get_some {bufs : Heap MemBuf} {p : Nat} {d : BufData}
    (h : (dataOf bufs).get p = some d) : ∃ b, bufs.get p = some b ∧ b.data = d := by
  simpa [dataOf] using h

@[simp] theorem dataOf_next (bufs : Heap MemBuf) : (dataOf bufs).next = bufs.next := rfl

/-- The comparator reads size and address only. -/
def dataKey (D : Heap BufData) (p : Nat) : Lex (Nat × Nat) :=
  match D.get p with
  | some d => toLex (d.size, d.addr)
  | none => toLex (0, 0)

theorem memBufKey_eq (bufs : Heap MemBuf) : memBufKey bufs = dataKey (dataOf bufs) := by
  funext p
  simp only [memBufKey, dataKey, dataOf, Heap.get_map]
  cases bufs.get p <;> rfl

theorem dataKey_of_get {D : Heap BufData} {p : Nat} {d : BufData} (h : D.get p = some d) :
    dataKey D p = toLex (d.size, d.addr) := by
  simp [dataKey, h]

theorem dataKey_congr {D D' : Heap BufData} {p : Nat} (h : D'.get p = D.get p) :
    dataKey D' p = dataKey D p := by
  simp [dataKey, h]

/-- The statuses of the two ordered sets. -/
def MemBufStatus.isFree (st : MemBufStatus) : Prop := st = .idle ∨ st = .eagerFree

instance : DecidablePred MemBufStatus.isFree := fun st =>
  inferInstanceAs (Decidable (st = .idle ∨ st = .eagerFree))

/-- Where a block lies. -/
def MemBlock.span (blk : MemBlock) : Nat × Nat := (blk.addr, blk.size)

/-- Two blocks do not overlap. -/
def MemBlock.Apart (x y : MemBlock) : Prop :=
  x.addr + x.size ≤ y.addr ∨ y.addr + y.size ≤ x.addr

/-- A set of an allocator with blocks `own` holds buffers of status `st`, and
all non-empty ones but the detached buffer `x`. -/
structure SetOk (D : Heap BufData) (own : List Nat) (st : MemBufStatus) (ps : List Nat)
    (x : Option Nat) : Prop where
  sorted : OrdSet.Sorted (dataKey D) ps
  sound : ∀ p ∈ ps, x ≠ some p ∧ ∃ d, D.get p = some d ∧ d.memBlock ∈ own ∧ d.status = st
  complete : ∀ p d, D.get p = some d → d.memBlock ∈ own → d.status = st → 0 < d.size →
    x ≠ some p → p ∈ ps

/-- The invariant of an allocator; `lay B` lists the buffers of block `B`. -/
structure AllocInv (bufs : Heap MemBuf) (blocks : Heap MemBlock) (al : MemBufAllocator)
    (lay : Nat → List Nat) (x : Option Nat) : Prop where
  blocksNodup : al.memBlocks.Nodup
  chain : ∀ B ∈ al.memBlocks, ∃ blk, blocks.get B = some blk ∧
    Seg bufs none blk.addr (lay B) none (blk.addr + blk.size)
  nodup : ∀ B ∈ al.memBlocks, (lay B).Nodup
  mem_iff : ∀ B ∈ al.memBlocks, ∀ p,
    p ∈ lay B ↔ ∃ d, (dataOf bufs).get p = some d ∧ d.memBlock = B
  apart : ∀ B ∈ al.memBlocks, ∀ B' ∈ al.memBlocks, B ≠ B' → ∀ blk blk',
    blocks.get B = some blk → blocks.get B' = some blk' → blk.Apart blk'
  quiet : ∀ p d, (dataOf bufs).get p = some d → d.memBlock ∈ al.memBlocks →
    d.status.isFree → d.isEventNotUsed = true
  free : SetOk (dataOf bufs) al.memBlocks .idle al.freeMemBufs x
  eager : SetOk (dataOf bufs) al.memBlocks .eagerFree al.eagerFreeMemBufs x

/-! ## Buffers of one allocator do not overlap -/

section Overlap

variable {bufs : Heap MemBuf} {blocks : Heap MemBlock} {al : MemBufAllocator}
  {lay : Nat → List Nat} {x : Option Nat}

/-- A buffer lies in its block. -/
theorem AllocInv.inside (h : AllocInv bufs blocks al lay x) {p : Nat} {d : BufData}
    (hp : (dataOf bufs).get p = some d) (hB : d.memBlock ∈ al.memBlocks) :
    ∃ blk, blocks.get d.memBlock = some blk ∧ blk.addr ≤ d.addr ∧
      d.addr + d.size ≤ blk.addr + blk.size := by
  obtain ⟨blk, hblk, hseg⟩ := h.chain _ hB
  obtain ⟨b, hb, h1, h2⟩ := hseg.mem ((h.mem_iff _ hB p).mpr ⟨d, hp, rfl⟩)
  obtain ⟨b', hb', rfl⟩ := dataOf_get_some hp
  rw [hb] at hb'
  cases hb'
  exact ⟨blk, hblk, h1, h2⟩

/-- One of two buffers ends before the other starts. -/
theorem AllocInv.apart_of_ne (h : AllocInv bufs blocks al lay x) {p q : Nat}
    {d e : BufData} (hp : (dataOf bufs).get p = some d) (hq : (dataOf bufs).get q = some e)
    (hdB : d.memBlock ∈ al.memBlocks) (heB : e.memBlock ∈ al.memBlocks) (hpq : p ≠ q) :
    d.addr + d.size ≤ e.addr ∨ e.addr + e.size ≤ d.addr := by
  by_cases hB : d.memBlock = e.memBlock
  · obtain ⟨blk, _, hseg⟩ := h.chain _ hdB
    obtain ⟨b, hb, rfl⟩ := dataOf_get_some hp
    obtain ⟨b', hb', rfl⟩ := dataOf_get_some hq
    have hm := (h.mem_iff _ hdB p).mpr ⟨_, hp, rfl⟩
    have hm' := (h.mem_iff _ hdB q).mpr ⟨_, hq, hB.symm⟩
    exact hseg.disjoint hm hm' hpq hb hb'
  · obtain ⟨blk, hblk, h1, h2⟩ := h.inside hp hdB
    obtain ⟨blk', hblk', h1', h2'⟩ := h.inside hq heB
    have := h.apart _ hdB _ heB hB _ _ hblk hblk'
    unfold MemBlock.Apart at this
    omega

/-- Two buffers that share a byte are the same buffer. -/
theorem AllocInv.eq_of_overlap (h : AllocInv bufs blocks al lay x) {p q : Nat}
    {d e : BufData} (hp : (dataOf bufs).get p = some d) (hq : (dataOf bufs).get q = some e)
    (hdB : d.memBlock ∈ al.memBlocks) (heB : e.memBlock ∈ al.memBlocks) {a : Nat}
    (ha : d.addr ≤ a ∧ a < d.addr + d.size) (ha' : e.addr ≤ a ∧ a < e.addr + e.size) :
    p = q := by
  by_contra hpq
  have := h.apart_of_ne hp hq hdB heB hpq
  omega

/-- Equal keys of non-empty buffers mean equal buffers. -/
theorem AllocInv.eq_of_key (h : AllocInv bufs blocks al lay x) {p q : Nat}
    {d e : BufData} (hp : (dataOf bufs).get p = some d) (hq : (dataOf bufs).get q = some e)
    (hdB : d.memBlock ∈ al.memBlocks) (heB : e.memBlock ∈ al.memBlocks)
    (hpos : 0 < d.size) (hkey : dataKey (dataOf bufs) p = dataKey (dataOf bufs) q) :
    p = q := by
  rw [dataKey_of_get hp, dataKey_of_get hq] at hkey
  have heq : (d.size, d.addr) = (e.size, e.addr) := hkey
  simp only [Prod.mk.injEq] at heq
  exact h.eq_of_overlap hp hq hdB heB (a := d.addr) ⟨by omega, by omega⟩ ⟨by omega, by omega⟩

end Overlap

/-! ## The two sets -/

section Sets

variable {D D' : Heap BufData} {own : List Nat} {st : MemBufStatus} {ps : List Nat}
  {p q : Nat}

/-- A set stays in order when the buffers in it keep their data. -/
theorem SetOk.congr {x : Option Nat} (h : SetOk D own st ps x)
    (hget : ∀ q ∈ ps, ∃ d d', D.get q = some d ∧ D'.get q = some d' ∧ d'.size = d.size ∧
      d'.addr = d.addr ∧ d'.memBlock = d.memBlock ∧ d'.status = d.status)
    (hback : ∀ q d', D'.get q = some d' → d'.memBlock ∈ own → d'.status = st →
      0 < d'.size → x ≠ some q →
      ∃ d, D.get q = some d ∧ d.memBlock ∈ own ∧ d.status = st ∧ 0 < d.size) :
    SetOk D' own st ps x where
  sorted := h.sorted.congr fun q hq => by
    obtain ⟨d, d', hd, hd', h1, h2, _⟩ := hget q hq
    rw [dataKey_of_get hd, dataKey_of_get hd', h1, h2]
  sound := fun q hq => by
    obtain ⟨hx, d, hd, hB, hst⟩ := h.sound q hq
    obtain ⟨d₁, d', hd₁, hd', _, _, h3, h4⟩ := hget q hq
    rw [hd] at hd₁
    cases hd₁
    exact ⟨hx, d', hd', h3 ▸ hB, h4.trans hst⟩
  complete := fun q d' hd' hB hst hpos hx => by
    obtain ⟨d, hd, hB, hst, hpos⟩ := hback q d' hd' hB hst hpos hx
    exact h.complete q d hd hB hst hpos hx

/-- Edits of the detached buffer do not concern a set. -/
theorem SetOk.modify (h : SetOk D own st ps (some p)) (f : BufData → BufData) :
    SetOk (D.modify p f) own st ps (some p) := by
  have hne : ∀ q, some p ≠ some q → q ≠ p := fun q hq heq => hq (by rw [heq])
  refine h.congr (fun q hq => ?_) (fun q d' hd' hB hst hpos hx => ?_)
  · obtain ⟨hx, d, hd, _⟩ := h.sound q hq
    exact ⟨d, d, hd, by rw [Heap.get_modify_ne _ _ (hne q hx), hd], rfl, rfl, rfl, rfl⟩
  · rw [Heap.get_modify_ne _ _ (hne q hx)] at hd'
    exact ⟨d', hd', hB, hst, hpos⟩

/-- A buffer outside the set, neither in it nor to be in it, may go. -/
theorem SetOk.delete {x : Option Nat} (h : SetOk D own st ps x) (hq : q ∉ ps) :
    SetOk (D.delete q) own st ps x := by
  refine h.congr (fun r hr => ?_) (fun r d' hd' hB hst hpos hx => ?_)
  · obtain ⟨_, d, hd, _⟩ := h.sound r hr
    have hne : r ≠ q := fun heq => hq (heq ▸ hr)
    exact ⟨d, d, hd, by rw [Heap.get_delete_ne _ hne, hd], rfl, rfl, rfl, rfl⟩
  · rw [Heap.get_delete] at hd'
    split at hd'
    · cases hd'
    · exact ⟨d', hd', hB, hst, hpos⟩

/-- `erase` of a buffer of the set, which is deleted next. -/
theorem SetOk.erase_delete (h : SetOk D own st ps (some p))
    (huniq : ∀ r e, D.get r = some e → e.memBlock ∈ own → 0 < e.size → r ≠ p →
      dataKey D r = dataKey D q → r = q) :
    SetOk (D.delete q) own st (OrdSet.erase (dataKey D) (dataKey D q) ps) (some p) := by
  have hne : ∀ r ∈ OrdSet.erase (dataKey D) (dataKey D q) ps, r ≠ q := fun r hr heq =>
    OrdSet.key_ne_of_mem_erase h.sorted hr (by rw [heq])
  refine ⟨?_, ?_, ?_⟩
  · refine (OrdSet.sorted_erase h.sorted).congr fun r hr => dataKey_congr ?_
    exact Heap.get_delete_ne _ (hne r hr)
  · intro r hr
    obtain ⟨hx, e, he, hB, hst⟩ := h.sound r (OrdSet.mem_of_mem_erase hr)
    exact ⟨hx, e, by rw [Heap.get_delete_ne _ (hne r hr), he], hB, hst⟩
  · intro r e he hB hst hpos hx
    rw [Heap.get_delete] at he
    split at he
    · cases he
    · rename_i hrq
      refine OrdSet.mem_erase_of_ne (h.complete r e he hB hst hpos hx) fun hkey => hrq ?_
      exact huniq r e he hB hpos (fun heq => hx (by rw [heq])) hkey

/-- `emplace` of the detached buffer, after which it is attached. -/
theorem SetOk.emplace {d : BufData} (h : SetOk D own st ps (some p)) (hp : D.get p = some d)
    (hB : d.memBlock ∈ own) (hst : d.status = st)
    (huniq : ∀ r e, D.get r = some e → e.memBlock ∈ own → 0 < d.size →
      dataKey D r = dataKey D p → r = p) :
    SetOk D own st (OrdSet.emplace (dataKey D) p ps) none where
  sorted := OrdSet.sorted_emplace h.sorted
  sound := fun r hr => by
    refine ⟨by simp, ?_⟩
    rcases OrdSet.mem_emplace hr with rfl | hr
    · exact ⟨d, hp, hB, hst⟩
    · exact (h.sound r hr).2
  complete := fun r e he hBe hste hpos _ => by
    by_cases hrp : r = p
    · subst hrp
      rw [hp] at he
      cases he
      refine OrdSet.mem_emplace_self fun y hy hkey => ?_
      obtain ⟨hx, e, he, hBy, _⟩ := h.sound y hy
      exact hx (by rw [huniq y e he hBy hpos hkey])
    · exact OrdSet.mem_emplace_of_mem
        (h.complete r e he hBe hste hpos fun heq => hrp (Option.some.inj heq).symm)

/-- A buffer of another status has no place in the set. -/
theorem SetOk.detach {d : BufData} (h : SetOk D own st ps none) (hp : D.get p = some d)
    (hst : d.status ≠ st) : SetOk D own st ps (some p) where
  sorted := h.sorted
  sound := fun q hq => by
    obtain ⟨_, e, he, hB, hste⟩ := h.sound q hq
    refine ⟨fun heq => ?_, e, he, hB, hste⟩
    cases heq
    rw [hp] at he
    cases he
    exact hst hste
  complete := fun q e he hB hste hpos _ => h.complete q e he hB hste hpos (by simp)

theorem SetOk.attach {d : BufData} (h : SetOk D own st ps (some p)) (hp : D.get p = some d)
    (hst : d.status ≠ st) : SetOk D own st ps none where
  sorted := h.sorted
  sound := fun q hq => ⟨by simp, (h.sound q hq).2⟩
  complete := fun q e he hB hste hpos _ => by
    refine h.complete q e he hB hste hpos fun heq => ?_
    cases heq
    rw [hp] at he
    cases he
    exact hst hste

/-- The buffer found by `lower_bound` leaves the set. -/
theorem SetOk.erase_mem (h : SetOk D own st ps none) :
    SetOk D own st (ps.erase p) (some p) := by
  have hnd : ps.Nodup := h.sorted.imp fun {a b} hab heq => by
    subst heq
    exact lt_irrefl _ hab
  refine ⟨h.sorted.sublist List.erase_sublist, fun q hq => ?_, fun q e he hB hst hpos hx => ?_⟩
  · have hq' := (List.Nodup.mem_erase_iff hnd).mp hq
    exact ⟨fun heq => hq'.1 (Option.some.inj heq).symm, (h.sound q hq'.2).2⟩
  · exact (List.Nodup.mem_erase_iff hnd).mpr
      ⟨fun heq => hx (by rw [heq]), h.complete q e he hB hst hpos (by simp)⟩

/-- A new buffer, not attached yet, leaves the sets as they are. -/
theorem SetOk.new (h : SetOk D own st ps none) (d : BufData) :
    SetOk (D.new d) own st ps (some D.next) := by
  have hmem : ∀ q ∈ ps, q ≠ D.next := fun q hq => by
    obtain ⟨_, e, he, _⟩ := h.sound q hq
    exact Heap.ne_next he
  have hget : ∀ q, q ≠ D.next → (D.new d).get q = D.get q := fun q hq => by
    rw [Heap.get_new, if_neg hq]
  refine ⟨h.sorted.congr fun q hq => dataKey_congr (hget q (hmem q hq)), fun q hq => ?_,
    fun q e he hB hst hpos hx => ?_⟩
  · obtain ⟨_, e, he, hB, hst⟩ := h.sound q hq
    exact ⟨fun heq => hmem q hq (Option.some.inj heq).symm, e,
      by rw [hget q (hmem q hq), he], hB, hst⟩
  · have hne : q ≠ D.next := fun heq => hx (by rw [heq])
    rw [hget q hne] at he
    exact h.complete q e he hB hst hpos (by simp)

end Sets

/-! ## Replacing the chain of one block -/

/-- `bufs'` differs from `bufs` in block `B` only, whose buffers were `ps` and
are now `ps'`. -/
structure Rechain (bufs bufs' : Heap MemBuf) (B : Nat) (ps ps' : List Nat) : Prop where
  out : ∀ r, r ∉ ps → r ∉ ps' → bufs'.get r = bufs.get r
  gone : ∀ r ∈ ps, r ∉ ps' → bufs'.get r = none
  new : ∀ r ∈ ps', r ∉ ps → bufs.get r = none
  here : ∀ r ∈ ps', ∃ b, bufs'.get r = some b ∧ b.memBlock = B

/-- The buffers of the blocks outside `own` are the same. -/
def Outside (own : List Nat) (bufs bufs' : Heap MemBuf) : Prop :=
  ∀ r b, b.memBlock ∉ own → (bufs'.get r = some b ↔ bufs.get r = some b)

section Rechain

variable {bufs bufs' : Heap MemBuf} {blocks blocks' : Heap MemBlock}
  {al al' : MemBufAllocator} {lay lay' : Nat → List Nat} {x x' : Option Nat} {B : Nat}
  {ps ps' : List Nat}

theorem AllocInv.memBlock_of_mem (h : AllocInv bufs blocks al lay x)
    (hB : B ∈ al.memBlocks) {p : Nat} (hp : p ∈ lay B) :
    ∃ b, bufs.get p = some b ∧ b.memBlock = B := by
  obtain ⟨d, hd, rfl⟩ := (h.mem_iff B hB p).mp hp
  obtain ⟨b, hb, rfl⟩ := dataOf_get_some hd
  exact ⟨b, hb, rfl⟩

theorem AllocInv.mem_lay (h : AllocInv bufs blocks al lay x) {p : Nat} {b : MemBuf}
    (hp : bufs.get p = some b) (hB : b.memBlock ∈ al.memBlocks) : p ∈ lay b.memBlock :=
  (h.mem_iff _ hB p).mpr ⟨b.data, dataOf_get hp, rfl⟩

/-- Where a buffer outside block `B` is concerned, nothing has changed. -/
theorem Rechain.get_iff (hr : Rechain bufs bufs' B ps ps')
    (hps : ∀ p ∈ ps, ∃ b, bufs.get p = some b ∧ b.memBlock = B) {r : Nat} {b : MemBuf}
    (hb : b.memBlock ≠ B) : bufs'.get r = some b ↔ bufs.get r = some b := by
  by_cases hr' : r ∈ ps'
  · obtain ⟨b', hb', hB'⟩ := hr.here r hr'
    constructor
    · intro heq
      rw [hb'] at heq
      cases heq
      exact absurd hB' hb
    · intro heq
      by_cases hr0 : r ∈ ps
      · obtain ⟨b₀, hb₀, hB₀⟩ := hps r hr0
        rw [hb₀] at heq
        cases heq
        exact absurd hB₀ hb
      · rw [hr.new r hr' hr0] at heq
        cases heq
  · by_cases hr0 : r ∈ ps
    · obtain ⟨b₀, hb₀, hB₀⟩ := hps r hr0
      rw [hr.gone r hr0 hr', hb₀]
      constructor
      · intro heq
        cases heq
      · intro heq
        cases heq
        exact absurd hB₀ hb
    · rw [hr.out r hr0 hr']

/-- A chain edit in one owned block is no concern of the others. -/
theorem Outside.of_rechain {own : List Nat} (hr : Rechain bufs bufs' B ps ps')
    (hps : ∀ p ∈ ps, ∃ b, bufs.get p = some b ∧ b.memBlock = B) (hB : B ∈ own) :
    Outside own bufs bufs' := fun _ _ hb =>
  hr.get_iff hps fun heq => hb (heq ▸ hB)

theorem Outside.modify {own : List Nat} {p : Nat} {b : MemBuf} {f : MemBuf → MemBuf}
    (hp : bufs.get p = some b) (hB : b.memBlock ∈ own) (hf : (f b).memBlock ∈ own) :
    Outside own bufs (bufs.modify p f) := by
  intro r y hy
  by_cases hrp : r = p
  · subst hrp
    rw [Heap.get_modify_self, hp]
    constructor
    · intro heq
      cases heq
      exact absurd hf hy
    · intro heq
      cases heq
      exact absurd hB hy
  · rw [Heap.get_modify_ne _ _ hrp]

/-- The invariant after an edit of the chain of block `B`. -/
theorem AllocInv.rechain (h : AllocInv bufs blocks al lay x) (hB : B ∈ al.memBlocks)
    (hr : Rechain bufs bufs' B (lay B) ps') (hnd : ps'.Nodup)
    (hseg : ∀ blk, blocks.get B = some blk →
      Seg bufs' none blk.addr ps' none (blk.addr + blk.size))
    (hown : al'.memBlocks = al.memBlocks)
    (hquiet : ∀ p d, (dataOf bufs').get p = some d → d.memBlock ∈ al.memBlocks →
      d.status.isFree → d.isEventNotUsed = true)
    (hfree : SetOk (dataOf bufs') al.memBlocks .idle al'.freeMemBufs x')
    (heager : SetOk (dataOf bufs') al.memBlocks .eagerFree al'.eagerFreeMemBufs x') :
    AllocInv bufs' blocks al' (Function.update lay B ps') x' := by
  -- a buffer of another block has not changed
  have hget : ∀ {r : Nat} {b : MemBuf}, b.memBlock ≠ B →
      (bufs'.get r = some b ↔ bufs.get r = some b) := fun hb =>
    hr.get_iff (fun p hp => h.memBlock_of_mem hB hp) hb
  refine ⟨hown ▸ h.blocksNodup, ?_, ?_, ?_, hown ▸ h.apart, hown ▸ hquiet, hown ▸ hfree,
    hown ▸ heager⟩
  · intro C hC
    rw [hown] at hC
    obtain ⟨blk, hblk, hsegC⟩ := h.chain C hC
    refine ⟨blk, hblk, ?_⟩
    by_cases hCB : C = B
    · subst hCB
      rw [Function.update_self]
      exact hseg blk hblk
    · rw [Function.update_of_ne hCB]
      refine hsegC.congr_get fun r hr => ?_
      obtain ⟨b, hb, hbC⟩ := h.memBlock_of_mem hC hr
      rw [hb]
      exact (hget (by rw [hbC]; exact hCB)).mpr hb
  · intro C hC
    rw [hown] at hC
    by_cases hCB : C = B
    · subst hCB
      rwa [Function.update_self]
    · rw [Function.update_of_ne hCB]
      exact h.nodup C hC
  · intro C hC r
    rw [hown] at hC
    by_cases hCB : C = B
    · subst hCB
      rw [Function.update_self]
      constructor
      · intro hr'
        obtain ⟨b, hb, hbB⟩ := hr.here r hr'
        exact ⟨b.data, dataOf_get hb, hbB⟩
      · rintro ⟨d, hd, hdB⟩
        obtain ⟨b, hb, rfl⟩ := dataOf_get_some hd
        -- a buffer that says it is in the block is in its chain: it was there or it is new
        by_cases hr' : r ∈ ps'
        · exact hr'
        · by_cases hr0 : r ∈ lay C
          · rw [hr.gone r hr0 hr'] at hb
            cases hb
          · rw [hr.out r hr0 hr'] at hb
            exact absurd ((h.mem_iff C hC r).mpr ⟨_, dataOf_get hb, hdB⟩) hr0
    · rw [Function.update_of_ne hCB, h.mem_iff C hC r]
      constructor
      · rintro ⟨d, hd, hdC⟩
        obtain ⟨b, hb, rfl⟩ := dataOf_get_some hd
        exact ⟨_, dataOf_get ((hget (by rw [show b.memBlock = C from hdC]; exact hCB)).mpr hb),
          hdC⟩
      · rintro ⟨d, hd, hdC⟩
        obtain ⟨b, hb, rfl⟩ := dataOf_get_some hd
        exact ⟨_, dataOf_get ((hget (by rw [show b.memBlock = C from hdC]; exact hCB)).mp hb),
          hdC⟩

/-- An allocator is not concerned by edits of blocks that are not its own. -/
theorem AllocInv.frame {own : List Nat} (h : AllocInv bufs blocks al lay x)
    (hout : Outside own bufs bufs') (hblk : ∀ C, C ∉ own → blocks'.get C = blocks.get C)
    (hlay : ∀ C, C ∉ own → lay' C = lay C) (hdisj : ∀ C ∈ al.memBlocks, C ∉ own) :
    AllocInv bufs' blocks' al lay' x := by
  have hdata : ∀ r d, d.memBlock ∈ al.memBlocks →
      ((dataOf bufs').get r = some d ↔ (dataOf bufs).get r = some d) := by
    intro r d hd
    constructor
    · intro hg
      obtain ⟨b, hb, rfl⟩ := dataOf_get_some hg
      exact dataOf_get ((hout r b (hdisj _ hd)).mp hb)
    · intro hg
      obtain ⟨b, hb, rfl⟩ := dataOf_get_some hg
      exact dataOf_get ((hout r b (hdisj _ hd)).mpr hb)
  have hset : ∀ st ps, SetOk (dataOf bufs) al.memBlocks st ps x →
      SetOk (dataOf bufs') al.memBlocks st ps x := by
    intro st ps hs
    refine hs.congr (fun q hq => ?_) (fun q d' hd' hB hst hpos _ => ?_)
    · obtain ⟨_, d, hd, hB, _⟩ := hs.sound q hq
      exact ⟨d, d, hd, (hdata q d hB).mpr hd, rfl, rfl, rfl, rfl⟩
    · exact ⟨d', (hdata q d' hB).mp hd', hB, hst, hpos⟩
  refine ⟨h.blocksNodup, ?_, ?_, ?_, ?_, ?_, hset _ _ h.free, hset _ _ h.eager⟩
  · intro C hC
    obtain ⟨blk, hb, hseg⟩ := h.chain C hC
    rw [hlay C (hdisj C hC)]
    refine ⟨blk, by rw [hblk C (hdisj C hC), hb], hseg.congr_get fun r hr => ?_⟩
    obtain ⟨b, hb, hbC⟩ := h.memBlock_of_mem hC hr
    rw [hb]
    exact (hout r b (by rw [hbC]; exact hdisj C hC)).mpr hb
  · intro C hC
    rw [hlay C (hdisj C hC)]
    exact h.nodup C hC
  · intro C hC r
    rw [hlay C (hdisj C hC), h.mem_iff C hC r]
    constructor
    · rintro ⟨d, hd, rfl⟩
      exact ⟨d, (hdata r d hC).mpr hd, rfl⟩
    · rintro ⟨d, hd, rfl⟩
      exact ⟨d, (hdata r d hC).mp hd, rfl⟩
  · intro C hC C' hC' hne blk blk' hb hb'
    rw [hblk C (hdisj C hC)] at hb
    rw [hblk C' (hdisj C' hC')] at hb'
    exact h.apart C hC C' hC' hne blk blk' hb hb'
  · intro p d hd hB
    exact h.quiet p d ((hdata p d hB).mp hd) hB

end Rechain

end Ccbase.Memory
