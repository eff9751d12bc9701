import Ccbase.Memory.LiveRanges

/-!
# Sums over the buffers

How the total size of the buffers of certain statuses changes with each step of
the arena. Merging and splitting free buffers changes no such total. All buffers
together fit into the address space, so that a `size_t` that counts some of them
does not wrap around.

`Plain` collects the steps of the clients that record no events.
-/

namespace Ccbase.Memory

open Ccbase.Lib Relation

variable {δ : Type} {dev : Device δ}

/-- The size of a buffer if it is one of those counted, by its status and its block. -/
def BufData.sizeWhere (P : MemBufStatus → Nat → Bool) (d : BufData) : Nat :=
  if P d.status d.memBlock then d.size else 0

/-- The size of a buffer if its status is one of those counted. -/
def BufData.sizeIn (S : MemBufStatus → Bool) (d : BufData) : Nat :=
  if S d.status then d.size else 0

section Sums

variable {P : MemBufStatus → Nat → Bool} {S : MemBufStatus → Bool} {D D' : Heap BufData}

theorem sizeWhere_le (d : BufData) : d.sizeWhere P ≤ d.size := by
  unfold BufData.sizeWhere
  split
  · exact Nat.le_refl _
  · exact Nat.zero_le _

theorem sizeIn_le (d : BufData) : d.sizeIn S ≤ d.size := sizeWhere_le (P := fun st _ => S st) d

theorem sum_sizeWhere_merge {own : Nat → Prop} (h : Merge own D D') :
    D'.sum (BufData.sizeWhere P) = D.sum (BufData.sizeWhere P) := by
  cases h with
  | @mk p q a d e hp hq hne _ hB _ hst _ _ =>
      let g : BufData → BufData := fun x => { x with addr := a, size := x.size + e.size }
      have hmod : (D.modify p g).sum (BufData.sizeWhere P) + d.sizeWhere P =
          D.sum (BufData.sizeWhere P) + (g d).sizeWhere P := Heap.sum_modify hp
      have hdel : ((D.modify p g).delete q).sum (BufData.sizeWhere P) + e.sizeWhere P =
          (D.modify p g).sum (BufData.sizeWhere P) :=
        Heap.sum_delete (by rw [Heap.get_modify_ne _ _ hne.symm]; exact hq)
      have hg : (g d).sizeWhere P = d.sizeWhere P + e.sizeWhere P := by
        unfold BufData.sizeWhere
        rw [hst, hB]
        show (if P d.status d.memBlock = true then d.size + e.size else 0) = _
        split <;> rfl
      show ((D.modify p g).delete q).sum (BufData.sizeWhere P) = _
      omega

theorem sum_sizeWhere_merges {own : Nat → Prop} (h : ReflTransGen (Merge own) D D') :
    D'.sum (BufData.sizeWhere P) = D.sum (BufData.sizeWhere P) := by
  induction h with
  | refl => rfl
  | tail _ hstep ih => exact (sum_sizeWhere_merge hstep).trans ih

theorem sum_sizeIn_merge {own : Nat → Prop} (h : Merge own D D') :
    D'.sum (BufData.sizeIn S) = D.sum (BufData.sizeIn S) :=
  sum_sizeWhere_merge (P := fun st _ => S st) h

theorem sum_sizeIn_merges {own : Nat → Prop} (h : ReflTransGen (Merge own) D D') :
    D'.sum (BufData.sizeIn S) = D.sum (BufData.sizeIn S) :=
  sum_sizeWhere_merges (P := fun st _ => S st) h

/-- A buffer keeps its first `n` bytes, and a new one of the same kind gets the others. -/
theorem sum_sizeWhere_cut {p n : Nat} {d rest : BufData} (hp : D.get p = some d)
    (hn : n ≤ d.size) (hsize : rest.size = d.size - n)
    (hkind : P rest.status rest.memBlock = P d.status d.memBlock) :
    ((D.new rest).modify p fun x => { x with size := n }).sum (BufData.sizeWhere P) =
      D.sum (BufData.sizeWhere P) := by
  have hnew : (D.new rest).get p = some d := by
    rw [Heap.get_new, if_neg (Heap.ne_next hp), hp]
  have hmod := Heap.sum_modify (f := BufData.sizeWhere P) (g := fun x => { x with size := n }) hnew
  have hsum : rest.sizeWhere P + ({ d with size := n } : BufData).sizeWhere P =
      d.sizeWhere P := by
    unfold BufData.sizeWhere
    rw [hkind, hsize]
    show (if P d.status d.memBlock = true then d.size - n else 0) +
      (if P d.status d.memBlock = true then n else 0) = _
    split <;> omega
  rw [Heap.sum_new] at hmod
  omega

theorem sum_sizeWhere_split {p n : Nat} {d : BufData} (hp : D.get p = some d) (hn : n ≤ d.size) :
    ((D.new (d.rest n)).modify p fun x => { x with size := n }).sum (BufData.sizeWhere P) =
      D.sum (BufData.sizeWhere P) :=
  sum_sizeWhere_cut hp hn rfl rfl

theorem sum_sizeIn_split {p n : Nat} {d : BufData} (hp : D.get p = some d) (hn : n ≤ d.size) :
    ((D.new (d.rest n)).modify p fun x => { x with size := n }).sum (BufData.sizeIn S) =
      D.sum (BufData.sizeIn S) :=
  sum_sizeWhere_split (P := fun st _ => S st) hp hn

/-- A write of the status. -/
theorem sum_sizeWhere_status {p : Nat} {d : BufData} (hp : D.get p = some d) (st : MemBufStatus) :
    (D.modify p fun x => { x with status := st }).sum (BufData.sizeWhere P) + d.sizeWhere P =
      D.sum (BufData.sizeWhere P) + if P st d.memBlock then d.size else 0 :=
  Heap.sum_modify hp

theorem sum_sizeIn_status {p : Nat} {d : BufData} (hp : D.get p = some d) (st : MemBufStatus) :
    (D.modify p fun x => { x with status := st }).sum (BufData.sizeIn S) + d.sizeIn S =
      D.sum (BufData.sizeIn S) + if S st then d.size else 0 :=
  Heap.sum_modify hp

end Sums

namespace Arena

variable {vmm : Bool} {law : DeviceLaw dev} {b₀ : Nat} {A A' : Arena δ}

/-- The blocks of the pool lie in the address space. -/
def InSpace (A : Arena δ) : Prop :=
  ∀ k B r, A.owns k B → A.blocks.get B = some r → r.1 + r.2 < sizeBound

theorem InSpace.congr (h : InSpace A) (hblocks : A'.blocks = A.blocks)
    (howns : A'.owns = A.owns) : InSpace A' := by
  unfold InSpace
  rw [hblocks, howns]
  exact h

theorem InSpace.path (hbd : dev.Bounded) (h : InSpace A)
    (hs : ReflTransGen (Background dev vmm) A A') : InSpace A' := by
  induction hs with
  | refl => exact h
  | tail _ hstep ih =>
      intro k B r hB hr
      rcases hstep.block_cases hB hr with ⟨hB, hr⟩ | ⟨_, hsz, eager, n, d', hd'⟩
      · exact ih k B r hB hr
      · exact hbd _ _ _ _ _ _ hd' hsz

/-! ## Clients without events -/

/-- One call that has nothing to do with events. -/
inductive Plain (dev : Device δ) (vmm : Bool) (A : Arena δ) : Arena δ → Prop where
  | quiet {A' : Arena δ} (hpath : ReflTransGen (Background dev vmm) A A') : Plain dev vmm A A'
  | hand {size p : Nat} {k : AllocatorKey} {A₁ A' : Arena δ}
      (hpath : ReflTransGen (Background dev vmm) A A₁) (hh : Hand dev size p k A₁ A') :
      Plain dev vmm A A'
  | free {addr : Nat} {ok : Bool} {A' : Arena δ} (hf : FreeStep addr A ok A') : Plain dev vmm A A'

theorem Spread.plain (hdis : law.Disjoint) (hb : Base law vmm b₀ A) (h : Spread A)
    (hs : Plain dev vmm A A') : Spread A' := by
  cases hs with
  | quiet hpath => exact h.path hdis hb hpath
  | hand hpath hh => exact (h.path hdis hb hpath).congr hh.blocks.1 hh.blocks.2
  | free hf =>
      have hframe := hf.frame hb
      exact h.congr hframe.blocks hframe.owns

theorem InSpace.plain (hbd : dev.Bounded) (hb : Base law vmm b₀ A) (h : InSpace A)
    (hs : Plain dev vmm A A') : InSpace A' := by
  cases hs with
  | quiet hpath => exact h.path hbd hpath
  | hand hpath hh => exact (h.path hbd hpath).congr hh.blocks.1 hh.blocks.2
  | free hf =>
      have hframe := hf.frame hb
      exact h.congr hframe.blocks hframe.owns

theorem Plain.pairs (hb : Base law vmm b₀ A) (hs : Plain dev vmm A A') : A'.pairs = A.pairs := by
  cases hs with
  | quiet hpath => exact (Calm.of_path hpath).pairs
  | hand hpath hh =>
      obtain ⟨_, hf⟩ := hh.frame
      rw [hf.pairs, (Calm.of_path hpath).pairs]
  | free hf => exact (hf.frame hb).pairs

end Arena

namespace Pool

variable {law : DeviceLaw dev} {s s' : Pool δ}

/-- The calls of `Plain`. -/
def noEventCall : Call → Prop
  | .alloc _ _ _ _ => True
  | .free _ => True
  | .defrag => True
  | _ => False

instance : DecidablePred noEventCall
  | .alloc _ _ _ _ => isTrue trivial
  | .free _ => isTrue trivial
  | .defrag => isTrue trivial
  | .freePart _ _ _ => isFalse id
  | .record _ _ _ _ => isFalse id
  | .wait _ _ _ => isFalse id
  | .waitMem _ _ _ => isFalse id
  | .syncAllEvents => isFalse id

/-- A pool whose blocks are apart and in the address space. -/
structure Placed (law : DeviceLaw dev) (s : Pool δ) : Prop where
  inv : Inv law 0 s
  spread : Arena.Spread s.arena
  inSpace : Arena.InSpace s.arena

/-- One without events. -/
structure PlainInv (law : DeviceLaw dev) (s : Pool δ) : Prop extends Placed law s where
  noEvents : s.arena.pairs.entries.isEmpty = true

/-- A call without events, from any pool that no event has been recorded in. -/
theorem Inv.plain {b₀ : Nat} (h : Inv law b₀ s)
    (hno : s.arena.pairs.entries.isEmpty = true) {c : Call} (hc : noEventCall c)
    (hs : Step dev s c s') : Does law b₀ s s' (Arena.Plain dev s.enableVmm) := by
  cases c with
  | alloc size b n addr =>
      have hd := allocTensorMem_spec h (.inr hno) hs
      rcases hd.step.noEvents hno with ⟨_, hpath⟩ | ⟨p, k, A, d, hpath, hh, _⟩
      · exact ⟨hd.inv, hd.vmm, .quiet hpath⟩
      · exact ⟨hd.inv, hd.vmm, .hand hpath hh⟩
  | free addr =>
      cases hs
      have hd := freeTensorMem_spec h addr
      obtain ⟨ok, hstep⟩ := hd.step
      exact ⟨hd.inv, hd.vmm, .free hstep⟩
  | defrag =>
      have hq := defragMemory_spec h hs
      exact ⟨hq.inv, hq.vmm, .quiet hq.path⟩
  | freePart _ _ _ => exact hc.elim
  | record _ _ _ _ => exact hc.elim
  | wait _ _ _ => exact hc.elim
  | waitMem _ _ _ => exact hc.elim
  | syncAllEvents => exact hc.elim

theorem PlainInv.step (hdis : law.Disjoint) (hbd : dev.Bounded) (h : PlainInv law s) {c : Call}
    (hc : noEventCall c) (hs : Step dev s c s') :
    PlainInv law s' ∧ Does law 0 s s' (Arena.Plain dev s.enableVmm) := by
  have hd := h.inv.plain h.noEvents hc hs
  refine ⟨⟨⟨hd.inv, ?_, ?_⟩, ?_⟩, hd⟩
  · exact h.spread.plain hdis h.inv.base hd.step
  · exact h.inSpace.plain hbd h.inv.base hd.step
  · rw [hd.step.pairs h.inv.base]
    exact h.noEvents

theorem Placed.init (law : DeviceLaw dev) (enableVmm enableTiny : Bool) (d : δ) :
    Placed law (Pool.init enableVmm enableTiny d) := by
  refine ⟨Inv.init law enableVmm enableTiny d, ?_, ?_⟩
  · intro k _ B _ r _ _ _ _ hr
    cases hr
  · intro k B r _ hr
    cases hr

theorem PlainInv.init (law : DeviceLaw dev) (enableVmm enableTiny : Bool) (d : δ) :
    PlainInv law (Pool.init enableVmm enableTiny d) :=
  ⟨Placed.init law enableVmm enableTiny d, rfl⟩

/-- All buffers together fit into the address space. -/
theorem Placed.sum_size_lt (h : Placed law s) :
    s.arena.bufs.sum BufData.size < sizeBound := by
  have hle : s.arena.bufs.sum BufData.size ≤ sizeBound - 1 := by
    refine Heap.sum_le_of_disjoint BufData.addr ?_ ?_
    · intro p q x y a hp hq h1 h2 h3 h4
      exact h.inv.eq_of_overlap h.spread hp hq (Nat.zero_le _) (Nat.zero_le _) ⟨h1, h2⟩ ⟨h3, h4⟩
    · intro p x hp
      obtain ⟨k, al, hal, hB⟩ := h.inv.base.owned p x hp (Nat.zero_le _)
      obtain ⟨lay, hlay⟩ := h.inv.alloc
      obtain ⟨blk, hblk, _, h2⟩ := (hlay k al hal).inside hp hB
      have hlt := h.inSpace k x.memBlock blk.span ⟨al, hal, hB⟩ (by simp [arena, hblk])
      have hspan : blk.span = (blk.addr, blk.size) := rfl
      rw [hspan] at hlt
      dsimp only at hlt
      omega
  have hpos : 0 < sizeBound := by decide
  omega

end Pool

end Ccbase.Memory
