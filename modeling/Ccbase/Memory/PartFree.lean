import Ccbase.Memory.Cut
import Ccbase.Memory.Sizes
import Ccbase.Memory.EventCount

/-!
# `FreePartTensorMems`

The call cuts the buffers it frees at the ends of the ranges that are kept, and then frees the
pieces in between. If every range to keep lies in one of the buffers, and no two of them overlap,
each of them lies in one piece until it is cut out, and the piece is the candidate that `floor?`
finds.

The address map is looked at through `rangeAt`: a cut changes the range at one address and adds
the range at another.
-/

namespace Ccbase.Memory

open Ccbase.Lib Chain Relation

variable {δ : Type} {dev : Device δ}

namespace Arena

variable {law : DeviceLaw dev} {vmm : Bool} {b₀ : Nat} {A A' : Arena δ}

/-! ## The address map as sizes by address -/

/-- The size of the buffer that the address map holds for an address. -/
def sizeAt (A : Arena δ) (a : Nat) : Option Nat :=
  (A.live.lookup a).bind fun v => (A.bufs.get v.1).map BufData.size

theorem sizeAt_of_lookup {a p : Nat} {k : AllocatorKey} {d : BufData}
    (hl : A.live.lookup a = some (p, k)) (hp : A.bufs.get p = some d) :
    A.sizeAt a = some d.size := by
  unfold sizeAt
  rw [hl, Option.bind_some, hp, Option.map_some]

theorem Base.of_sizeAt {a m : Nat} (hb : Base law vmm b₀ A) (h : A.sizeAt a = some m) :
    ∃ p k d, A.live.lookup a = some (p, k) ∧ A.bufs.get p = some d ∧ d.addr = a ∧
      d.size = m := by
  obtain ⟨⟨p, k⟩, hl, h⟩ := Option.bind_eq_some_iff.mp h
  obtain ⟨d, hp, hm⟩ := Option.map_eq_some_iff.mp h
  obtain ⟨d', hp', ha, -, -⟩ := hb.live a p k hl
  have hp : A.bufs.get p = some d := hp
  rw [hp] at hp'
  cases hp'
  exact ⟨p, k, d, hl, hp, ha, hm⟩

/-- An address that is in the map has a size. -/
theorem Base.sizeAt_isSome {a : Nat} {v : Nat × AllocatorKey} (hb : Base law vmm b₀ A)
    (hl : A.live.lookup a = some v) : ∃ m, A.sizeAt a = some m := by
  obtain ⟨p, k⟩ := v
  obtain ⟨d, hp, -⟩ := hb.live a p k hl
  exact ⟨d.size, sizeAt_of_lookup hl hp⟩

theorem CutFrame.sizeAt {p n : Nat} {k : AllocatorKey} {d rest : BufData}
    (hb : Base law vmm b₀ A) (h : CutFrame p n k d rest A A') (a : Nat) :
    A'.sizeAt a = if a = rest.addr then some rest.size else if a = d.addr then some n
      else A.sizeAt a := by
  split
  · rename_i ha
    refine sizeAt_of_lookup (k := k) ?_ h.right
    rw [h.lookup, if_pos ha]
  · rename_i ha
    have hl : A'.live.lookup a = A.live.lookup a := by rw [h.lookup, if_neg ha]
    split
    · rename_i had
      refine sizeAt_of_lookup (k := k) (d := { d with size := n }) ?_ h.left
      rw [hl, had]
      exact h.live
    · rename_i had
      unfold Arena.sizeAt
      rw [hl]
      cases hv : A.live.lookup a with
      | none => rfl
      | some v =>
          obtain ⟨q, k'⟩ := v
          obtain ⟨e, he, hea, -, -⟩ := hb.live a q k' hv
          have hqp : q ≠ p := fun heq => by
            subst heq
            rw [h.get] at he
            cases he
            exact had hea.symm
          rw [Option.bind_some, Option.bind_some]
          dsimp only
          rw [h.others q hqp (Heap.ne_next he)]

/-- A cut of some buffer into two parts, neither of which is empty. -/
def CutStep (A A' : Arena δ) : Prop := ∃ p n rest, 0 < n ∧ 0 < rest.size ∧ Cut p n rest A A'

end Arena

namespace Pool

variable {law : DeviceLaw dev} {s s' : Pool δ} {k : AllocatorKey} {p n m : Nat} {b : MemBuf}

/-! ## Cutting inside a buffer -/

/-- What is cut off behind the first `n` bytes of a buffer. -/
def restOf (b : MemBuf) (n : Nat) : MemBuf :=
  { size := b.size - n, addr := b.addr + n, streamId := b.streamId, memBlock := b.memBlock,
    status := b.status }

/-- `rest` is a new buffer in use for what lies behind the first `n` bytes of `b`. -/
structure IsRest (b : MemBuf) (n : Nat) (rest : MemBuf) : Prop where
  size : rest.size = b.size - n
  addr : rest.addr = b.addr + n
  memBlock : rest.memBlock = b.memBlock
  inUse : ¬ rest.status.isFree
  quiet : rest.isEventNotUsed = true
  next : rest.next = none

/-- A buffer of the address map is in use. -/
theorem Placed.isRest (h : Placed law s)
    (hl : s.addrMemBufAllocators.lookup b.addr = some (p, k)) (hb : s.bufs.get p = some b)
    (n : Nat) : IsRest b n (restOf b n) := by
  obtain ⟨d, hd, -, hst, -⟩ := h.inv.base.live _ _ _ hl
  rw [show s.arena.bufs.get p = some b.data from dataOf_get hb] at hd
  cases hd
  exact ⟨rfl, rfl, rfl, hst, rfl, rfl⟩

/-- The end of a buffer, which does not wrap around. -/
theorem Placed.end_lt (h : Placed law s) (hb : s.bufs.get p = some b) :
    b.addr + b.size < sizeBound := by
  obtain ⟨k, al, hal, hB⟩ := h.inv.base.owned p b.data (dataOf_get hb) (Nat.zero_le _)
  obtain ⟨lay, hlay⟩ := h.inv.alloc
  obtain ⟨blk, hblk, -, h2⟩ := (hlay k al hal).inside (dataOf_get hb) hB
  have hlt := h.inSpace k b.memBlock blk.span ⟨al, hal, hB⟩ (by
    show (s.blocks.map MemBlock.span).get b.memBlock = _
    rw [Heap.get_map, show s.blocks.get b.memBlock = some blk from hblk]
    rfl)
  have hspan : blk.span = (blk.addr, blk.size) := rfl
  rw [hspan] at hlt
  have h2 : b.addr + b.size ≤ blk.addr + blk.size := h2
  omega

/-- The map has no address inside a buffer but that of the buffer. -/
theorem Placed.fresh_inside (h : Placed law s) (hb : s.bufs.get p = some b) {a : Nat}
    (h1 : b.addr < a) (h2 : a < b.addr + b.size) : s.addrMemBufAllocators.lookup a = none := by
  cases hl : s.addrMemBufAllocators.lookup a with
  | none => rfl
  | some v =>
      obtain ⟨q, k⟩ := v
      obtain ⟨e, he, hea, -, -⟩ := h.inv.base.live a q k hl
      have hp : s.arena.bufs.get p = some b.data := dataOf_get hb
      by_cases hpq : p = q
      · subst hpq
        rw [hp] at he
        cases he
        have hea : b.addr = a := hea
        omega
      · have hap := h.inv.apart_of_ne h.spread hp he (Nat.zero_le _) (Nat.zero_le _) hpq
        have hap : b.addr + b.size ≤ e.addr ∨ e.addr + e.size ≤ b.addr := hap
        omega

theorem Placed.cutAt {rest : MemBuf} (h : Placed law s)
    (hl : s.addrMemBufAllocators.lookup b.addr = some (p, k)) (hb : s.bufs.get p = some b)
    (h0 : 0 < n) (hn : n < b.size) (hr : IsRest b n rest) :
    Does law 0 s (cutAt p n rest k s) (Arena.Cut p n rest.data) ∧
      Placed law (cutAt p n rest k s) := by
  have hfresh : s.addrMemBufAllocators.lookup rest.addr = none := by
    rw [hr.addr]
    exact h.fresh_inside hb (by omega) (by omega)
  have hcut : Does law 0 s (Pool.cutAt p n rest k s) (Arena.Cut p n rest.data) :=
    cutAt_spec h.inv hl hb hn.le hr.inUse hr.memBlock hr.addr hr.size hr.quiet hr.next hfresh
  obtain ⟨_, _, hf⟩ := hcut.step.frame
  exact ⟨hcut, hcut.inv, h.spread.congr hf.blocks hf.owns, h.inSpace.congr hf.blocks hf.owns⟩

/-- The size of what has been cut off may be given at once. -/
theorem cutAt_resize {rest : MemBuf} (hb : s.bufs.get p = some b)
    (hnq : b.next ≠ some s.bufs.next)
    (hfresh : s.addrMemBufAllocators.lookup rest.addr = none) :
    ({ Pool.cutAt p n rest k s with
      bufs := (Pool.cutAt p n rest k s).bufs.modify s.bufs.next fun x => { x with size := m } } :
        Pool δ) = Pool.cutAt p n { rest with size := m } k s := by
  have hpn : p ≠ s.bufs.next := Heap.ne_next hb
  have hbufs : (linkMemBuf ((s.bufs.modify p fun x => { x with size := n }).new rest) s.bufs.next
        (some p) b.next).modify s.bufs.next (fun x => { x with size := m }) =
      linkMemBuf ((s.bufs.modify p fun x => { x with size := n }).new { rest with size := m })
        s.bufs.next (some p) b.next := by
    refine Heap.ext (fun r => ?_) (by simp)
    unfold linkMemBuf
    cases hbn : b.next with
    | none =>
        simp only [Heap.get_modify, Heap.get_new, Heap.next_modify]
        by_cases hrq : r = s.bufs.next
        · subst hrq
          simp [hpn.symm]
        · simp [hrq, hpn]
    | some nx =>
        have hnq : nx ≠ s.bufs.next := fun heq => hnq (by rw [hbn, heq])
        simp only [Heap.get_modify, Heap.get_new, Heap.next_modify]
        by_cases hrq : r = s.bufs.next
        · subst hrq
          simp [hpn.symm, hnq.symm]
        · simp [hrq, hpn, hnq]
  have hfresh' : s.addrMemBufAllocators.lookup ({ rest with size := m } : MemBuf).addr = none :=
    hfresh
  rw [cutAt_eq hb hfresh, cutAt_eq hb hfresh']
  simp only [hbufs]

/-- A buffer in use is cut behind its first `n` bytes. -/
inductive CutStep (law : DeviceLaw dev) (s : Pool δ) : Pool δ → Prop where
  | mk {p n : Nat} {k : AllocatorKey} {b rest : MemBuf} (h : Placed law s)
      (hl : s.addrMemBufAllocators.lookup b.addr = some (p, k)) (hb : s.bufs.get p = some b)
      (h0 : 0 < n) (hn : n < b.size) (hr : IsRest b n rest) :
      CutStep law s (Pool.cutAt p n rest k s)

/-- Cuts, and nothing else, lead from `s` to `s'`. -/
structure Cuts (law : DeviceLaw dev) (s s' : Pool δ) : Prop where
  placed : Placed law s'
  vmm : s'.enableVmm = s.enableVmm
  path : ReflTransGen (CutStep law) s s'

theorem Cuts.refl (h : Placed law s) : Cuts law s s := ⟨h, rfl, .refl⟩

theorem Cuts.arena (h : Cuts law s s') : ReflTransGen Arena.CutStep s.arena s'.arena := by
  refine h.path.lift Pool.arena fun s s' hcut => ?_
  cases hcut with
  | @mk p n k b rest hs hl hb h0 hn hr =>
      obtain ⟨hcut, -⟩ := hs.cutAt hl hb h0 hn hr
      have hrest : 0 < rest.data.size := by
        show 0 < rest.size
        rw [hr.size]
        omega
      exact ⟨p, n, _, h0, hrest, hcut.step⟩

theorem Cuts.trans {s'' : Pool δ} (h : Cuts law s s') (h' : Cuts law s' s'') : Cuts law s s'' :=
  ⟨h'.placed, h'.vmm.trans h.vmm, h.path.trans h'.path⟩

/-- The buffer `p` at `a` is cut `n` bytes behind `a`; `q` is the part behind the cut. -/
structure CutIn (law : DeviceLaw dev) (p n q : Nat) (b rest : MemBuf) (k : AllocatorKey)
    (s s' : Pool δ) : Prop extends Cuts law s s' where
  lookup : ∀ z, s'.addrMemBufAllocators.lookup z =
    if z = b.addr + n then some (q, k) else s.addrMemBufAllocators.lookup z
  sizeAt : ∀ z, s'.arena.sizeAt z = if z = b.addr + n then some (b.size - n)
    else if z = b.addr then some n else s.arena.sizeAt z
  right : ∃ b', s'.bufs.get q = some b' ∧ b'.data = rest.data

theorem Placed.cutIn {rest : MemBuf} (h : Placed law s)
    (hl : s.addrMemBufAllocators.lookup b.addr = some (p, k)) (hb : s.bufs.get p = some b)
    (h0 : 0 < n) (hn : n < b.size) (hr : IsRest b n rest) :
    CutIn law p n s.bufs.next b rest k s (Pool.cutAt p n rest k s) := by
  obtain ⟨hcut, hplaced⟩ := h.cutAt hl hb h0 hn hr
  obtain ⟨k', d, hf⟩ := hcut.step.frame
  have hd : d = b.data := by
    have hget := hf.get
    rw [show s.arena.bufs.get p = some b.data from dataOf_get hb] at hget
    exact (Option.some.inj hget).symm
  have hk : k' = k := by
    have hlive := hf.live
    rw [hd, show s.arena.live.lookup b.data.addr = some (p, k) from hl] at hlive
    exact (congrArg Prod.snd (Option.some.inj hlive)).symm
  rw [hd, hk] at hf
  have haddr : rest.data.addr = b.addr + n := hr.addr
  have hsize : rest.data.size = b.size - n := hr.size
  refine ⟨⟨hplaced, hcut.vmm, .single (.mk h hl hb h0 hn hr)⟩, fun z => ?_, fun z => ?_, ?_⟩
  · rw [← haddr]
    exact hf.lookup z
  · rw [← haddr, ← hsize]
    exact hf.sizeAt h.inv.base z
  · obtain ⟨b', hb', hdata⟩ := dataOf_get_some hf.right
    exact ⟨b', hb', hdata⟩

/-! ## Keeping one range -/

/-- The range of `n` bytes from `x` on is cut out of the piece of `m` bytes from `a` on. It is in
the buffer `q` then. -/
structure Carved (law : DeviceLaw dev) (a m x n q : Nat) (k : AllocatorKey) (s s' : Pool δ) :
    Prop extends Cuts law s s' where
  lookup_keep : s'.addrMemBufAllocators.lookup x = some (q, k)
  lookup : ∀ z, z ≠ x → ¬ (z = x + n ∧ x + n < a + m) →
    s'.addrMemBufAllocators.lookup z = s.addrMemBufAllocators.lookup z
  lookup_tail : x + n < a + m → ∃ r, s'.addrMemBufAllocators.lookup (x + n) = some (r, k)
  sizeAt : ∀ z, s'.arena.sizeAt z = if z = x then some n
    else if z = x + n ∧ x + n < a + m then some (a + m - (x + n))
    else if z = a then some (x - a) else s.arena.sizeAt z

/-- The first `n` bytes of a buffer are kept. -/
def keepHead (p n : Nat) (b : MemBuf) (k : AllocatorKey) (s : Pool δ) : Pool δ :=
  if n < b.size then cutAt p n (restOf b n) k s else s

theorem Placed.keepHead (h : Placed law s)
    (hl : s.addrMemBufAllocators.lookup b.addr = some (p, k)) (hb : s.bufs.get p = some b)
    (h0 : 0 < n) (hn : n ≤ b.size) :
    Carved law b.addr b.size b.addr n p k s (keepHead p n b k s) := by
  have hsize : s.arena.sizeAt b.addr = some b.size := by
    have hp : s.arena.bufs.get p = some b.data := dataOf_get hb
    exact Arena.sizeAt_of_lookup (A := s.arena) hl hp
  unfold Pool.keepHead
  split
  · rename_i hlt
    have hc := h.cutIn hl hb h0 hlt (h.isRest hl hb n)
    refine ⟨hc.toCuts, ?_, fun z hz hz' => ?_, fun _ => ⟨s.bufs.next, ?_⟩, fun z => ?_⟩
    · rw [hc.lookup, if_neg (by omega)]
      exact hl
    · rw [hc.lookup, if_neg (fun heq => hz' ⟨heq, by omega⟩)]
    · rw [hc.lookup, if_pos rfl]
    · rw [hc.sizeAt]
      by_cases hz : z = b.addr + n
      · rw [if_pos hz, if_neg (by omega), if_pos ⟨hz, by omega⟩]
        congr 1
        omega
      · rw [if_neg hz]
        by_cases hzb : z = b.addr
        · rw [if_pos hzb, if_pos hzb]
        · rw [if_neg hzb, if_neg hzb, if_neg (fun hzz => hz hzz.1), if_neg hzb]
  · rename_i hge
    have hn : n = b.size := by omega
    refine ⟨.refl h, hl, fun z _ _ => rfl, fun hlt => by omega, fun z => ?_⟩
    by_cases hzb : z = b.addr
    · rw [if_pos hzb, hzb, hsize, hn]
    · rw [if_neg hzb, if_neg (by omega), if_neg hzb]

/-- What the end of the loop body makes of a buffer whose size has been set. -/
theorem keepTail_eq (st : PartFree δ) (hb : s.bufs.get p = some b) {keepEnd baseEnd : Nat}
    (hkeep : keepEnd = b.addr + n) (hbase : baseEnd = b.addr + b.size) (hn : n ≤ b.size) :
    keepTail p keepEnd baseEnd b.status k { st with
        pool := { s with bufs := s.bufs.modify p fun x => { x with size := n } } } =
      { st with
        pool := keepHead p n b k s
        candidates := if b.addr + n < b.addr + b.size
          then st.candidates.emplace (b.addr + n) (s.bufs.next, k) else st.candidates } := by
  have hget : (s.bufs.modify p fun x => { x with size := n }).get p =
      some { b with size := n } := by
    rw [Heap.get_modify_self, hb]
    rfl
  subst hkeep hbase
  unfold keepTail keepHead
  by_cases hlt : n < b.size
  · have hlt' : b.addr + n < b.addr + b.size := by omega
    rw [if_pos hlt, if_pos hlt', if_pos hlt']
    dsimp only
    rw [hget]
    dsimp only
    have hrest : (⟨⟨none⟩, none, none, b.addr + b.size - (b.addr + n), b.addr + n, b.streamId,
        b.memBlock, b.status⟩ : MemBuf) = restOf b n := by
      unfold restOf
      rw [show b.addr + b.size - (b.addr + n) = b.size - n by omega]
    rw [hrest]
    rfl
  · have hn : n = b.size := by omega
    have hsame : (s.bufs.modify p fun x => { x with size := n }) = s.bufs := by
      refine Heap.ext (fun r => ?_) rfl
      by_cases hr : r = p
      · rw [hr, hget, hb, hn]
      · rw [Heap.get_modify_ne _ _ hr]
    have hge : ¬ b.addr + n < b.addr + b.size := by omega
    rw [if_neg hlt, if_neg hge, if_neg hge, hsame]

theorem CutIn.carved {s₁ : Pool δ} {b₁ rest : MemBuf} {x q : Nat}
    (hc : CutIn law p n q b rest k s s₁)
    (hn : n < b.size) (hx : x = b.addr + n) (hsize : b₁.size = b.size - n)
    (haddr : b₁.addr = b.addr + n)
    (h : Carved law b₁.addr b₁.size b₁.addr m q k s₁ s') :
    Carved law b.addr b.size x m q k s s' := by
  rw [haddr, ← hx] at h
  have hend : x + b₁.size = b.addr + b.size := by omega
  refine ⟨hc.toCuts.trans h.toCuts, h.lookup_keep, fun z hz hz' => ?_, fun hlt => ?_, fun z => ?_⟩
  · rw [h.lookup z hz (by rw [hend]; exact hz'), hc.lookup, if_neg (by omega)]
  · exact h.lookup_tail (by omega)
  · rw [h.sizeAt, hend, hc.sizeAt, ← hx]
    by_cases hzx : z = x
    · rw [if_pos hzx, if_pos hzx]
    · simp only [if_neg hzx]
      by_cases hzt : z = x + m ∧ x + m < b.addr + b.size
      · rw [if_pos hzt, if_pos hzt]
      · simp only [if_neg hzt]
        by_cases hzb : z = b.addr
        · rw [if_pos hzb, if_pos hzb]
          congr 1
          omega
        · rw [if_neg hzb, if_neg hzb]

/-- The candidates after a range has been kept: what is left behind it is one more, and the
range itself is none. -/
def CandidatesKept (a m x n : Nat) (s' : Pool δ) (c c' : OrdMap Nat (Nat × AllocatorKey)) :
    Prop :=
  ∀ z, c'.find? z = if z = x + n ∧ x + n < a + m then s'.addrMemBufAllocators.lookup z
    else if z = x then none else c.find? z

theorem candidatesKept {a x : Nat} {v : Nat × AllocatorKey}
    {c c₀ : OrdMap Nat (Nat × AllocatorKey)}
    (hc₀ : ∀ z, c₀.find? z = if z = x then none else c.find? z)
    (hfresh : x + n < a + m → c.find? (x + n) = none)
    (hv : x + n < a + m → s'.addrMemBufAllocators.lookup (x + n) = some v) :
    CandidatesKept a m x n s' c (if x + n < a + m then c₀.emplace (x + n) v else c₀) := by
  intro z
  by_cases hlt : x + n < a + m
  · have hnone : c₀.find? (x + n) = none := by rw [hc₀, hfresh hlt, ite_self]
    rw [if_pos hlt, OrdMap.find?_emplace]
    by_cases hz : z = x + n
    · subst hz
      rw [hnone, Option.none_or, if_pos rfl, if_pos ⟨rfl, hlt⟩, hv hlt]
    · have hz' : ¬ (z = x + n ∧ x + n < a + m) := fun h => hz h.1
      rw [if_neg hz, Option.or_none, if_neg hz', hc₀]
  · have hz' : ¬ (z = x + n ∧ x + n < a + m) := fun h => hlt h.2
    rw [if_neg hlt, if_neg hz', hc₀]

theorem Placed.keepHead_tail (h : Placed law s)
    (hl : s.addrMemBufAllocators.lookup b.addr = some (p, k)) (hb : s.bufs.get p = some b)
    (h0 : 0 < n) (hlt : n < b.size) :
    (Pool.keepHead p n b k s).addrMemBufAllocators.lookup (b.addr + n) =
      some (s.bufs.next, k) := by
  unfold Pool.keepHead
  rw [if_pos hlt, (h.cutIn hl hb h0 hlt (h.isRest hl hb n)).lookup, if_pos rfl]

/-- A range that lies in the candidate found for it. -/
theorem keepOne_spec (st : PartFree δ) (h : Placed law st.pool) {x a : Nat}
    (hnew : x ∉ st.processed) (hfloor : st.candidates.floor? x = some (a, (p, k)))
    (hcand : ∀ z v, st.candidates.find? z = some v →
      st.pool.addrMemBufAllocators.lookup z = some v)
    (hb : st.pool.bufs.get p = some b) (ha : b.addr = a) (h0 : 0 < n) (hax : a ≤ x)
    (hxe : x + n ≤ a + b.size) :
    ∃ s' q c', Carved law a b.size x n q k st.pool s' ∧
      CandidatesKept a b.size x n s' st.candidates c' ∧
      keepOne st x n =
        { pool := s', candidates := c', processed := x :: st.processed
          memBufs := st.memBufs ++ [q] } := by
  subst ha
  have hl : st.pool.addrMemBufAllocators.lookup b.addr = some (p, k) :=
    hcand _ _ (OrdMap.find?_eq_some_iff.mpr (OrdMap.floor?_eq_some hfloor).1)
  have hinside : ∀ z, b.addr < z → z < b.addr + b.size → st.candidates.find? z = none := by
    intro z h1 h2
    cases hf : st.candidates.find? z with
    | none => rfl
    | some v =>
        have hv := hcand z v hf
        rw [h.fresh_inside hb h1 h2] at hv
        cases hv
  have hend := h.end_lt hb
  have hbase : addSize b.addr b.size = b.addr + b.size := addSize_eq hend
  have hkeep : addSize x n = x + n := addSize_eq (by omega)
  unfold keepOne
  rw [if_neg hnew]
  simp only [hfloor, hb, hbase, hkeep]
  rw [if_neg (by omega)]
  by_cases hx : x = b.addr
  · -- the head of the buffer is kept
    subst hx
    rw [if_pos rfl]
    refine ⟨_, p, _, h.keepHead hl hb h0 (by omega), ?_, keepTail_eq { st with
      processed := b.addr :: st.processed
      candidates := st.candidates.erase b.addr
      memBufs := st.memBufs ++ [p] } hb rfl rfl (by omega)⟩
    refine candidatesKept (fun z => OrdMap.find?_erase ..) (fun hlt => ?_) fun hlt => ?_
    · exact hinside _ (by omega) hlt
    · exact h.keepHead_tail hl hb h0 (by omega)
  · -- the part in front of the range stays a candidate
    rw [if_neg hx]
    obtain ⟨al, b', hal, hb', -, -, hBal⟩ := h.inv.lookup hl
    rw [hb] at hb'
    cases hb'
    obtain ⟨lay, hlay⟩ := h.inv.alloc
    obtain ⟨hnp, hnq⟩ :=
      MemBufAllocator.next_ne_of_inv (c := st.pool.ctx al) (hlay k al hal) hb hBal
    have hfresh := h.fresh_inside hb (a := x) (by omega) (by omega)
    obtain ⟨n₁, rfl⟩ : ∃ n₁, x = b.addr + n₁ := ⟨x - b.addr, by omega⟩
    have hn₁ : b.addr + n₁ - b.addr = n₁ := by omega
    have hin := h.cutIn hl hb (n := n₁) (by omega) (by omega) (h.isRest hl hb n₁)
    obtain ⟨b₁, hb₁, hdata⟩ := hin.right
    have haddr₁ : b₁.addr = b.addr + n₁ := congrArg BufData.addr hdata
    have hsize₁ : b₁.size = b.size - n₁ := congrArg BufData.size hdata
    have hst₁ : b₁.status = b.status := congrArg BufData.status hdata
    have hend₁ : b₁.addr + b₁.size = b.addr + b.size := by omega
    have hl₁ : (Pool.cutAt p n₁ (restOf b n₁) k st.pool).addrMemBufAllocators.lookup b₁.addr =
        some (st.pool.bufs.next, k) := by
      rw [hin.lookup, if_pos haddr₁]
    have hhead := hin.placed.keepHead hl₁ hb₁ h0 (by omega)
    have hc := hin.carved (m := n) (by omega) rfl hsize₁ haddr₁ hhead
    have hresize : ({ Pool.cutAt p n₁ (restOf b n₁) k st.pool with
        bufs := (Pool.cutAt p n₁ (restOf b n₁) k st.pool).bufs.modify st.pool.bufs.next
          fun x => { x with size := n } } : Pool δ) =
        Pool.cutAt p n₁ { restOf b n₁ with size := n } k st.pool := cutAt_resize hb hnq hfresh
    have hkeep₁ : b.addr + n₁ + n = b₁.addr + n := by omega
    have heq := keepTail_eq (k := k) { st with
      processed := (b.addr + n₁) :: st.processed
      memBufs := st.memBufs ++ [st.pool.bufs.next] } hb₁ hkeep₁ hend₁.symm (by omega)
    rw [hend₁, haddr₁, hst₁, hresize, ← insertBehind_shrink hb hnp] at heq
    rw [hn₁]
    refine ⟨_, st.pool.bufs.next, _, hc, ?_, heq⟩
    refine candidatesKept (fun z => ?_) (fun hlt => ?_) fun hlt => ?_
    · split
      · rename_i hz
        rw [hz]
        exact hinside _ (by omega) (by omega)
      · rfl
    · exact hinside _ (by omega) hlt
    · rw [← haddr₁]
      exact hin.placed.keepHead_tail hl₁ hb₁ h0 (by omega)

/-! ## Keeping all ranges -/

/-- What a caller of `FreePartTensorMems` holds to: the ranges to keep are not empty, have no byte
in common, and each lies in one of the buffers that are freed. -/
structure KeepsFit (s : Pool δ) (freeAddrs : List Nat) (keeps : List (Nat × Nat)) : Prop where
  pos : ∀ x n, (x, n) ∈ keeps → 0 < n
  apart : ∀ x n y l, (x, n) ∈ keeps → (y, l) ∈ keeps → (x, n) ≠ (y, l) →
    x + n ≤ y ∨ y + l ≤ x
  inside : ∀ x n, (x, n) ∈ keeps → ∃ a ∈ freeAddrs, ∃ m, s.arena.sizeAt a = some m ∧
    a ≤ x ∧ x + n ≤ a + m

/-- The loop over the ranges: the candidates are the pieces between the ranges that have been
kept, and everything else is as it was. -/
structure Carving (law : DeviceLaw dev) (s₀ : Pool δ) (freeAddrs : List Nat)
    (keeps : List (Nat × Nat)) (st : PartFree δ) : Prop where
  cuts : Cuts law s₀ st.pool
  cand : ∀ z v, st.candidates.find? z = some v → st.pool.addrMemBufAllocators.lookup z = some v
  kept : ∀ x ∈ st.processed, ∃ n, (x, n) ∈ keeps ∧ st.pool.arena.sizeAt x = some n ∧
    st.candidates.find? x = none
  rest : ∀ z, st.candidates.find? z = none → z ∉ st.processed →
    st.pool.addrMemBufAllocators.lookup z = s₀.addrMemBufAllocators.lookup z ∧
    st.pool.arena.sizeAt z = s₀.arena.sizeAt z ∧
    (z ∈ freeAddrs → s₀.addrMemBufAllocators.lookup z = none)
  todo : ∀ x n, (x, n) ∈ keeps → x ∉ st.processed → ∃ a v m, st.candidates.find? a = some v ∧
    st.pool.arena.sizeAt a = some m ∧ a ≤ x ∧ x + n ≤ a + m
  inside : ∀ a v m, st.candidates.find? a = some v → st.pool.arena.sizeAt a = some m →
    ∃ a₀ ∈ freeAddrs, ∃ m₀, s₀.arena.sizeAt a₀ = some m₀ ∧ a₀ ≤ a ∧ a + m ≤ a₀ + m₀
  cover : ∀ a₀ ∈ freeAddrs, ∀ m₀, s₀.arena.sizeAt a₀ = some m₀ → ∀ z, a₀ ≤ z → z < a₀ + m₀ →
    (∃ a v m, st.candidates.find? a = some v ∧ st.pool.arena.sizeAt a = some m ∧ a ≤ z ∧
      z < a + m) ∨
    ∃ x n, (x, n) ∈ keeps ∧ x ∈ st.processed ∧ x ≤ z ∧ z < x + n
  memBufs : List.Forall₂ (fun q x => x ∈ st.processed ∧
    ∃ k, st.pool.addrMemBufAllocators.lookup x = some (q, k)) st.memBufs st.processed.reverse

section Carving

variable {s₀ : Pool δ} {freeAddrs : List Nat} {keeps : List (Nat × Nat)} {st : PartFree δ}
  {x a : Nat}

/-- What is not at the ends of the range that is kept, nor at the start of its piece, is as
before. -/
theorem Carved.others {q : Nat} {c c' : OrdMap Nat (Nat × AllocatorKey)}
    (hc : Carved law a m x n q k s s') (hcand : CandidatesKept a m x n s' c c') {z : Nat}
    (hzx : z ≠ x) (hzt : ¬ (z = x + n ∧ x + n < a + m)) :
    s'.addrMemBufAllocators.lookup z = s.addrMemBufAllocators.lookup z ∧
      c'.find? z = c.find? z ∧ (z ≠ a → s'.arena.sizeAt z = s.arena.sizeAt z) ∧
      (z = a → s'.arena.sizeAt z = some (x - a)) := by
  refine ⟨hc.lookup z hzx hzt, ?_, fun hza => ?_, fun hza => ?_⟩
  · rw [hcand, if_neg hzt, if_neg hzx]
  · rw [hc.sizeAt, if_neg hzx, if_neg hzt, if_neg hza]
  · rw [hc.sizeAt, if_neg hzx, if_neg hzt, if_pos hza]

theorem Carving.find (h : Carving law s₀ freeAddrs keeps st) (hx : (x, n) ∈ keeps)
    (h0 : 0 < n) (hnew : x ∉ st.processed) :
    ∃ a p k b, st.candidates.floor? x = some (a, (p, k)) ∧ st.pool.bufs.get p = some b ∧
      b.addr = a ∧ a ≤ x ∧ x + n ≤ a + b.size ∧ st.pool.arena.sizeAt a = some b.size := by
  obtain ⟨a, ⟨p, k⟩, m, hcand, hsize, hax, hxm⟩ := h.todo x n hx hnew
  have hlook := h.cand a _ hcand
  obtain ⟨d, hd, ha, -, -⟩ := h.cuts.placed.inv.base.live a p k hlook
  obtain ⟨b, hb, rfl⟩ := dataOf_get_some hd
  have ha : b.addr = a := ha
  have hm : b.size = m := by
    have hat := Arena.sizeAt_of_lookup (A := st.pool.arena) hlook hd
    rw [hsize] at hat
    exact (Option.some.inj hat).symm
  have hmem := OrdMap.find?_eq_some_iff.mp hcand
  refine ⟨a, p, k, b, ?_, hb, ha, hax, by omega, by rw [hsize, hm]⟩
  cases hf : st.candidates.floor? x with
  | none => exact absurd hax (not_le.mpr (OrdMap.floor?_eq_none hf _ hmem))
  | some e =>
      obtain ⟨he, hex, hmax⟩ := OrdMap.floor?_eq_some hf
      have hae := hmax _ hmem hax
      by_cases heq : e.1 = a
      · rw [OrdMap.eq_of_key_eq he hmem heq]
      · have hnone := h.cuts.placed.fresh_inside hb (a := e.1) (by omega) (by omega)
        have hsome := h.cand e.1 e.2 (OrdMap.find?_eq_some_iff.mpr he)
        rw [hnone] at hsome
        cases hsome

/-- One more range is kept: it lies in the candidate at `a`, which has `m` bytes. -/
structure KeepsOne (law : DeviceLaw dev) (keeps : List (Nat × Nat)) (st : PartFree δ)
    (x n a m p q : Nat) (k : AllocatorKey) (s' : Pool δ) (c' : OrdMap Nat (Nat × AllocatorKey)) :
    Prop where
  carved : Carved law a m x n q k st.pool s'
  cands : CandidatesKept a m x n s' st.candidates c'
  range : (x, n) ∈ keeps
  new : x ∉ st.processed
  pos : 0 < n
  find : st.candidates.find? a = some (p, k)
  size : st.pool.arena.sizeAt a = some m
  start : a ≤ x
  stop : x + n ≤ a + m
  fresh : ∀ z, a < z → z < a + m → st.pool.addrMemBufAllocators.lookup z = none

namespace KeepsOne

variable {m q : Nat} {c' : OrdMap Nat (Nat × AllocatorKey)}

/-- No entry of the map is at the ends of the range, unless the range is at the start of the
candidate. -/
theorem lookup_ends (ho : KeepsOne law keeps st x n a m p q k s' c') {z : Nat}
    {v : Nat × AllocatorKey} (hz : st.pool.addrMemBufAllocators.lookup z = some v) :
    (z = x → x = a) ∧ ¬ (z = x + n ∧ x + n < a + m) := by
  have hpos := ho.pos
  have hstart := ho.start
  have hstop := ho.stop
  constructor
  · intro hzx
    by_contra hne
    rw [ho.fresh z (by omega) (by omega)] at hz
    cases hz
  · rintro ⟨hzt, hlt⟩
    rw [ho.fresh z (by omega) (by omega)] at hz
    cases hz

theorem find_keep (ho : KeepsOne law keeps st x n a m p q k s' c') : c'.find? x = none := by
  have hpos := ho.pos
  rw [ho.cands, if_neg (by omega), if_pos rfl]

/-- What is behind the range is a candidate. -/
theorem find_tail (ho : KeepsOne law keeps st x n a m p q k s' c') (hlt : x + n < a + m) :
    ∃ v, c'.find? (x + n) = some v ∧ s'.arena.sizeAt (x + n) = some (a + m - (x + n)) := by
  have hpos := ho.pos
  obtain ⟨r, hr⟩ := ho.carved.lookup_tail hlt
  refine ⟨(r, k), ?_, ?_⟩
  · rw [ho.cands, if_pos ⟨rfl, hlt⟩, hr]
  · rw [ho.carved.sizeAt, if_neg (by omega), if_pos ⟨rfl, hlt⟩]

/-- What is in front of the range is one. -/
theorem find_head (ho : KeepsOne law keeps st x n a m p q k s' c') (hlt : a < x) :
    c'.find? a = some (p, k) ∧ s'.arena.sizeAt a = some (x - a) := by
  obtain ⟨-, hfind, -, hsize⟩ := ho.carved.others ho.cands (z := a) (by omega) (by omega)
  exact ⟨hfind.trans ho.find, hsize rfl⟩

/-- The other candidates stay. -/
theorem find_others (ho : KeepsOne law keeps st x n a m p q k s' c')
    (h : Carving law s₀ freeAddrs keeps st) {z : Nat} {v : Nat × AllocatorKey}
    (hz : st.candidates.find? z = some v) (hza : z ≠ a) :
    c'.find? z = some v ∧ s'.arena.sizeAt z = st.pool.arena.sizeAt z := by
  obtain ⟨hzx, hzt⟩ := ho.lookup_ends (h.cand z v hz)
  have hne : z ≠ x := fun heq => hza (heq.trans (hzx heq))
  obtain ⟨-, hfind, hsize, -⟩ := ho.carved.others ho.cands hne hzt
  exact ⟨hfind.trans hz, hsize hza⟩

theorem cand (ho : KeepsOne law keeps st x n a m p q k s' c')
    (h : Carving law s₀ freeAddrs keeps st) {z : Nat} {v : Nat × AllocatorKey}
    (hz : c'.find? z = some v) : s'.addrMemBufAllocators.lookup z = some v := by
  by_cases hzt : z = x + n ∧ x + n < a + m
  · rwa [ho.cands, if_pos hzt] at hz
  · by_cases hzx : z = x
    · rw [hzx, ho.find_keep] at hz
      cases hz
    · obtain ⟨hlook, hfind, -, -⟩ := ho.carved.others ho.cands hzx hzt
      rw [hfind] at hz
      rw [hlook]
      exact h.cand z v hz

/-- The ranges that have been kept before are left alone. -/
theorem kept (ho : KeepsOne law keeps st x n a m p q k s' c')
    (h : Carving law s₀ freeAddrs keeps st) {y : Nat} (hy : y ∈ x :: st.processed) :
    ∃ l, (y, l) ∈ keeps ∧ s'.arena.sizeAt y = some l ∧ c'.find? y = none := by
  by_cases hyx : y = x
  · subst hyx
    refine ⟨n, ho.range, ?_, ho.find_keep⟩
    rw [ho.carved.sizeAt, if_pos rfl]
  · obtain ⟨l, hl, hsz, hnone⟩ := h.kept y ((List.mem_cons.mp hy).resolve_left hyx)
    obtain ⟨p', k', -, hlook, -⟩ := h.cuts.placed.inv.base.of_sizeAt hsz
    have hya : y ≠ a := by
      intro heq
      rw [heq, ho.find] at hnone
      cases hnone
    obtain ⟨-, hfind, hsize, -⟩ := ho.carved.others ho.cands hyx (ho.lookup_ends hlook).2
    exact ⟨l, hl, (hsize hya).trans hsz, hfind.trans hnone⟩

theorem rest (ho : KeepsOne law keeps st x n a m p q k s' c')
    (h : Carving law s₀ freeAddrs keeps st) {z : Nat} (hz : c'.find? z = none)
    (hzp : z ∉ x :: st.processed) :
    s'.addrMemBufAllocators.lookup z = s₀.addrMemBufAllocators.lookup z ∧
      s'.arena.sizeAt z = s₀.arena.sizeAt z ∧
      (z ∈ freeAddrs → s₀.addrMemBufAllocators.lookup z = none) := by
  obtain ⟨hzx, hzp⟩ := not_or.mp (fun hor => hzp (List.mem_cons.mpr hor))
  by_cases hzt : z = x + n ∧ x + n < a + m
  · obtain ⟨v, hv, -⟩ := ho.find_tail hzt.2
    rw [hzt.1, hv] at hz
    cases hz
  · obtain ⟨hlook, hfind, hsize, -⟩ := ho.carved.others ho.cands hzx hzt
    rw [hfind] at hz
    have hza : z ≠ a := by
      intro heq
      rw [heq, ho.find] at hz
      cases hz
    rw [hlook, hsize hza]
    exact h.rest z hz hzp

/-- A range still to be kept is in front of this one, behind it, or in another candidate. -/
theorem todo (ho : KeepsOne law keeps st x n a m p q k s' c') (hfit : KeepsFit s₀ freeAddrs keeps)
    (h : Carving law s₀ freeAddrs keeps st) {y l : Nat} (hy : (y, l) ∈ keeps)
    (hyp : y ∉ x :: st.processed) :
    ∃ a₁ v m₁, c'.find? a₁ = some v ∧ s'.arena.sizeAt a₁ = some m₁ ∧ a₁ ≤ y ∧
      y + l ≤ a₁ + m₁ := by
  obtain ⟨hyx, hyp⟩ := not_or.mp (fun hor => hyp (List.mem_cons.mpr hor))
  obtain ⟨a₁, v₁, m₁, hf₁, hs₁, hle, hend⟩ := h.todo y l hy hyp
  by_cases ha₁ : a₁ = a
  · subst ha₁
    rw [ho.size] at hs₁
    cases hs₁
    have hl := hfit.pos y l hy
    rcases hfit.apart x n y l ho.range hy (fun heq => hyx (congrArg Prod.fst heq).symm) with
      hbehind | hfront
    · obtain ⟨v, hv, hsz⟩ := ho.find_tail (by omega)
      exact ⟨x + n, v, _, hv, hsz, hbehind, by omega⟩
    · obtain ⟨hf, hsz⟩ := ho.find_head (by omega)
      exact ⟨a₁, _, _, hf, hsz, hle, by omega⟩
  · obtain ⟨hf, hsz⟩ := ho.find_others h hf₁ ha₁
    exact ⟨a₁, v₁, m₁, hf, hsz.trans hs₁, hle, hend⟩

theorem inside (ho : KeepsOne law keeps st x n a m p q k s' c')
    (h : Carving law s₀ freeAddrs keeps st) {z l : Nat} {v : Nat × AllocatorKey}
    (hz : c'.find? z = some v) (hl : s'.arena.sizeAt z = some l) :
    ∃ a₀ ∈ freeAddrs, ∃ m₀, s₀.arena.sizeAt a₀ = some m₀ ∧ a₀ ≤ z ∧ z + l ≤ a₀ + m₀ := by
  have hpos := ho.pos
  have hstart := ho.start
  have hstop := ho.stop
  obtain ⟨a₀, ha₀, m₀, hs₀, hle, hend⟩ := h.inside a _ m ho.find ho.size
  by_cases hzt : z = x + n ∧ x + n < a + m
  · obtain ⟨-, -, hsz⟩ := ho.find_tail hzt.2
    rw [hzt.1, hsz] at hl
    cases hl
    exact ⟨a₀, ha₀, m₀, hs₀, by omega, by omega⟩
  · by_cases hzx : z = x
    · rw [hzx, ho.find_keep] at hz
      cases hz
    · obtain ⟨-, hfind, hsize, hhead⟩ := ho.carved.others ho.cands hzx hzt
      by_cases hza : z = a
      · rw [hhead hza] at hl
        cases hl
        exact ⟨a₀, ha₀, m₀, hs₀, by omega, by omega⟩
      · rw [hfind] at hz
        rw [hsize hza] at hl
        exact h.inside z v l hz hl

/-- A byte of the candidate is in front of the range, in it or behind it. -/
theorem cover (ho : KeepsOne law keeps st x n a m p q k s' c')
    (h : Carving law s₀ freeAddrs keeps st) {a₀ m₀ z : Nat} (ha₀ : a₀ ∈ freeAddrs)
    (hs₀ : s₀.arena.sizeAt a₀ = some m₀) (hle : a₀ ≤ z) (hlt : z < a₀ + m₀) :
    (∃ a₁ v m₁, c'.find? a₁ = some v ∧ s'.arena.sizeAt a₁ = some m₁ ∧ a₁ ≤ z ∧ z < a₁ + m₁) ∨
      ∃ y l, (y, l) ∈ keeps ∧ y ∈ x :: st.processed ∧ y ≤ z ∧ z < y + l := by
  rcases h.cover a₀ ha₀ m₀ hs₀ z hle hlt with ⟨a₁, v₁, m₁, hf₁, hs₁, h1, h2⟩ |
    ⟨y, l, hy, hyp, h1, h2⟩
  · by_cases ha₁ : a₁ = a
    · subst ha₁
      rw [ho.size] at hs₁
      cases hs₁
      rcases Nat.lt_or_ge z x with hzx | hzx
      · obtain ⟨hf, hsz⟩ := ho.find_head (by omega)
        exact .inl ⟨a₁, _, _, hf, hsz, h1, by omega⟩
      · rcases Nat.lt_or_ge z (x + n) with hzn | hzn
        · exact .inr ⟨x, n, ho.range, List.mem_cons_self .., hzx, hzn⟩
        · obtain ⟨v, hv, hsz⟩ := ho.find_tail (by omega)
          exact .inl ⟨x + n, v, _, hv, hsz, hzn, by omega⟩
    · obtain ⟨hf, hsz⟩ := ho.find_others h hf₁ ha₁
      exact .inl ⟨a₁, v₁, m₁, hf, hsz.trans hs₁, h1, h2⟩
  · exact .inr ⟨y, l, hy, List.mem_cons_of_mem _ hyp, h1, h2⟩

theorem memBufs (ho : KeepsOne law keeps st x n a m p q k s' c')
    (h : Carving law s₀ freeAddrs keeps st) :
    List.Forall₂ (fun q y => y ∈ x :: st.processed ∧
      ∃ k, s'.addrMemBufAllocators.lookup y = some (q, k))
      (st.memBufs ++ [q]) (x :: st.processed).reverse := by
  rw [List.reverse_cons]
  refine List.rel_append (h.memBufs.imp fun r y hy => ?_)
    (.cons ⟨List.mem_cons_self .., k, ho.carved.lookup_keep⟩ .nil)
  obtain ⟨hyp, k', hl⟩ := hy
  have hyx : y ≠ x := fun heq => ho.new (heq ▸ hyp)
  refine ⟨List.mem_cons_of_mem _ hyp, k', ?_⟩
  rw [(ho.carved.others ho.cands hyx (ho.lookup_ends hl).2).1]
  exact hl

end KeepsOne

theorem Carving.keepOne (hfit : KeepsFit s₀ freeAddrs keeps)
    (h : Carving law s₀ freeAddrs keeps st) (hx : (x, n) ∈ keeps) :
    Carving law s₀ freeAddrs keeps (keepOne st x n) := by
  by_cases hnew : x ∈ st.processed
  · unfold Pool.keepOne
    rw [if_pos hnew]
    exact h
  have h0 := hfit.pos x n hx
  obtain ⟨a, p, k, b, hfloor, hb, ha, hax, hxe, hsize⟩ := h.find hx h0 hnew
  obtain ⟨s', q, c', hcarved, hkept, heq⟩ := keepOne_spec st h.cuts.placed hnew hfloor h.cand hb ha
    h0 hax hxe
  rw [heq]
  have ho : KeepsOne law keeps st x n a b.size p q k s' c' :=
    { carved := hcarved, cands := hkept, range := hx, new := hnew, pos := h0
      find := OrdMap.find?_eq_some_iff.mpr (OrdMap.floor?_eq_some hfloor).1
      size := hsize, start := hax, stop := hxe
      fresh := fun z h1 h2 => h.cuts.placed.fresh_inside hb (by omega) (by omega) }
  exact
    { cuts := h.cuts.trans hcarved.toCuts
      cand := fun z v hz => ho.cand h hz
      kept := fun y hy => ho.kept h hy
      rest := fun z hz hzp => ho.rest h hz hzp
      todo := fun y l hy hyp => ho.todo hfit h hy hyp
      inside := fun z v l hz hl => ho.inside h hz hl
      cover := fun a₀ ha₀ m₀ hs₀ z hle hlt => ho.cover h ha₀ hs₀ hle hlt
      memBufs := ho.memBufs h }

theorem find?_freeCandidates (freeAddrs : List Nat) (s : Pool δ) (z : Nat) :
    (freeCandidates freeAddrs s).find? z =
      if z ∈ freeAddrs then s.addrMemBufAllocators.lookup z else none := by
  have hfold : ∀ c : OrdMap Nat (Nat × AllocatorKey),
      (freeAddrs.foldl (fun m a => (s.addrMemBufAllocators.lookup a).elim m fun v =>
        m.emplace a v) c).find? z =
      (c.find? z).or (if z ∈ freeAddrs then s.addrMemBufAllocators.lookup z else none) := by
    induction freeAddrs with
    | nil => simp
    | cons a as ih =>
        intro c
        rw [List.foldl_cons, ih]
        cases hl : s.addrMemBufAllocators.lookup a with
        | none =>
            by_cases hza : z = a
            · rw [hza, hl]
              simp
            · simp [hza]
        | some v =>
            rw [Option.elim_some, OrdMap.find?_emplace]
            by_cases hza : z = a
            · rw [hza, hl]
              cases c.find? a <;> simp
            · simp [hza]
  have hall := hfold OrdMap.empty
  rw [OrdMap.find?_empty, Option.none_or] at hall
  rw [← hall]
  unfold freeCandidates
  congr 1
  congr 1
  funext m a
  cases s.addrMemBufAllocators.lookup a <;> rfl

theorem Carving.init (hs : Placed law s) (hfit : KeepsFit s freeAddrs keeps) :
    Carving law s freeAddrs keeps
      { pool := s, candidates := freeCandidates freeAddrs s } := by
  have hfind := find?_freeCandidates freeAddrs s
  have hsome : ∀ a m, a ∈ freeAddrs → s.arena.sizeAt a = some m →
      ∃ v, (freeCandidates freeAddrs s).find? a = some v := by
    intro a m ha hm
    obtain ⟨p, k, -, hl, -⟩ := hs.inv.base.of_sizeAt hm
    exact ⟨(p, k), by rw [hfind, if_pos ha]; exact hl⟩
  refine ⟨.refl hs, ?_, fun x hx => (by cases hx), ?_, ?_, ?_, ?_, .nil⟩
  · intro z v hz
    have hz : (freeCandidates freeAddrs s).find? z = some v := hz
    rw [hfind] at hz
    split at hz
    · exact hz
    · cases hz
  · intro z hz _
    have hz : (freeCandidates freeAddrs s).find? z = none := hz
    refine ⟨rfl, rfl, fun hmem => ?_⟩
    rwa [hfind, if_pos hmem] at hz
  · intro x n hx _
    obtain ⟨a, ha, m, hm, h1, h2⟩ := hfit.inside x n hx
    obtain ⟨v, hv⟩ := hsome a m ha hm
    exact ⟨a, v, m, hv, hm, h1, h2⟩
  · intro a v m hv hm
    have hv : (freeCandidates freeAddrs s).find? a = some v := hv
    rw [hfind] at hv
    split at hv
    · exact ⟨a, by assumption, m, hm, Nat.le_refl _, Nat.le_refl _⟩
    · cases hv
  · intro a₀ ha₀ m₀ hm₀ z h1 h2
    obtain ⟨v, hv⟩ := hsome a₀ m₀ ha₀ hm₀
    exact .inl ⟨a₀, v, m₀, hv, hm₀, h1, h2⟩

theorem Carving.keepAll (hfit : KeepsFit s₀ freeAddrs keeps) :
    ∀ ks, ks ⊆ keeps → ∀ st : PartFree δ, Carving law s₀ freeAddrs keeps st →
      Carving law s₀ freeAddrs keeps (Pool.keepAll ks st) := by
  intro ks
  induction ks with
  | nil => exact fun _ st hst => hst
  | cons keep ks ih =>
      intro hsub st hst
      refine ih (fun _ hy => hsub (List.mem_cons_of_mem _ hy)) _ ?_
      exact hst.keepOne hfit (hsub (List.mem_cons_self ..))

theorem keepOne_processed (st : PartFree δ) (x n : Nat) :
    (keepOne st x n).processed =
      if x ∈ st.processed then st.processed else x :: st.processed := by
  have htail : ∀ (keep keepEnd baseEnd : Nat) (status : MemBufStatus) (k : AllocatorKey)
      (st : PartFree δ), (keepTail keep keepEnd baseEnd status k st).processed = st.processed := by
    intro keep keepEnd baseEnd status k st
    unfold keepTail
    split
    · split <;> rfl
    · rfl
  unfold keepOne
  split
  · rfl
  · dsimp only
    split
    · rfl
    · split
      · rfl
      · split
        · rfl
        · split
          · rw [htail]
          · rw [htail]

/-- Every address to keep is looked at once. -/
theorem keepAll_processed (ks : List (Nat × Nat)) (st : PartFree δ)
    (hnd : st.processed.Nodup) : (Pool.keepAll ks st).processed.Nodup ∧
      ∀ z, z ∈ (Pool.keepAll ks st).processed ↔ z ∈ st.processed ∨ z ∈ ks.map Prod.fst := by
  induction ks generalizing st with
  | nil => exact ⟨hnd, fun z => by simp [Pool.keepAll]⟩
  | cons keep ks ih =>
      have hone := keepOne_processed st keep.1 keep.2
      have hnd₁ : (keepOne st keep.1 keep.2).processed.Nodup := by
        rw [hone]
        split
        · exact hnd
        · exact List.nodup_cons.mpr ⟨by assumption, hnd⟩
      have hmem : ∀ z, z ∈ (keepOne st keep.1 keep.2).processed ↔
          z ∈ st.processed ∨ z = keep.1 := by
        intro z
        rw [hone]
        split
        · rename_i hin
          exact ⟨.inl, fun hor => hor.elim id fun heq => by rw [heq]; exact hin⟩
        · rw [List.mem_cons, or_comm]
      obtain ⟨h1, h2⟩ := ih _ hnd₁
      refine ⟨h1, fun z => ?_⟩
      have hz := h2 z
      rw [hmem] at hz
      rw [List.map_cons, List.mem_cons, ← or_assoc]
      exact hz

/-! ## Freeing the pieces in between -/

/-- The pieces are freed one after the other. -/
abbrev FreeAll (es : List (Nat × (Nat × AllocatorKey))) (A A' : Arena δ) : Prop :=
  Arena.Chained (fun e A A' => ∃ ok, Arena.FreeStep e.1 A ok A') es A A'

theorem freeAll_spec (es : List (Nat × (Nat × AllocatorKey))) :
    ∀ s : Pool δ, Placed law s → (es.map Prod.fst).Nodup →
      (∀ e ∈ es, s.addrMemBufAllocators.lookup e.1 = some e.2) →
      Placed law (es.foldl freeCandidate s) ∧ (es.foldl freeCandidate s).enableVmm = s.enableVmm ∧
        FreeAll es s.arena (es.foldl freeCandidate s).arena := by
  induction es with
  | nil => exact fun s hs _ _ => ⟨hs, rfl, .nil _⟩
  | cons e es ih =>
      intro s hs hnd hlook
      obtain ⟨a, p, k⟩ := e
      obtain ⟨hne, hnd⟩ := List.nodup_cons.mp hnd
      have hl := hlook _ (List.mem_cons_self ..)
      obtain ⟨d, hd, ha, -, -⟩ := hs.inv.base.live a p k hl
      obtain ⟨b, hb, rfl⟩ := dataOf_get_some hd
      have ha : b.addr = a := ha
      have hone : freeCandidate s (a, (p, k)) = (doFreeTensorMem a s).2 := by
        unfold freeCandidate
        rw [hb, ← ha]
      have hdo := doFreeTensorMem_spec hs.inv a
      have hf := hdo.step.frame hs.inv.base
      have hs₁ : Placed law (freeCandidate s (a, (p, k))) := by
        rw [hone]
        exact ⟨hdo.inv, hs.spread.congr hf.blocks hf.owns, hs.inSpace.congr hf.blocks hf.owns⟩
      have hlook₁ : ∀ e ∈ es, (freeCandidate s (a, (p, k))).addrMemBufAllocators.lookup e.1 =
          some e.2 := by
        intro e he
        have hea : e.1 ≠ a := fun heq => hne (by
          rw [← heq]
          exact List.mem_map.mpr ⟨e, he, rfl⟩)
        rw [hone]
        refine Eq.trans (hf.lookup e.1 hea) ?_
        exact hlook e (List.mem_cons_of_mem _ he)
      obtain ⟨h1, h2, h3⟩ := ih _ hs₁ hnd hlook₁
      refine ⟨h1, h2.trans ?_, .cons ⟨(doFreeTensorMem a s).1, ?_⟩ h3⟩
      · rw [hone]
        exact hdo.vmm
      · rw [hone]
        exact hdo.step

/-- What `FreePartTensorMems` does: the loop ends in `st`, and then its candidates are freed. -/
structure PartFreed (law : DeviceLaw dev) (freeAddrs : List Nat) (keeps : List (Nat × Nat))
    (s : Pool δ) (st : PartFree δ) (s' : Pool δ) : Prop where
  carving : Carving law s freeAddrs keeps st
  nodup : st.processed.Nodup
  processed : ∀ z, z ∈ st.processed ↔ z ∈ keeps.map Prod.fst
  placed : Placed law s'
  vmm : s'.enableVmm = s.enableVmm
  freed : FreeAll st.candidates.entries st.pool.arena s'.arena
  result : s' = st.candidates.entries.foldl freeCandidate st.pool

theorem Placed.partFreed {keepAddrs keepAddrSizes : List Nat} (hs : Placed law s)
    (hfit : KeepsFit s freeAddrs (keepAddrs.zip keepAddrSizes)) :
    ∃ st, PartFreed law freeAddrs (keepAddrs.zip keepAddrSizes) s st
        (freePartTensorMems freeAddrs keepAddrs keepAddrSizes s) ∧
      (doFreePartTensorMems freeAddrs keepAddrs keepAddrSizes s).1 = st.memBufs := by
  let st := Pool.keepAll (keepAddrs.zip keepAddrSizes)
    { pool := s, candidates := freeCandidates freeAddrs s }
  have hcarving : Carving law s freeAddrs (keepAddrs.zip keepAddrSizes) st :=
    Carving.keepAll hfit _ (List.Subset.refl _) _ (Carving.init hs hfit)
  obtain ⟨hnd, hmem⟩ := keepAll_processed (keepAddrs.zip keepAddrSizes)
    { pool := s, candidates := freeCandidates freeAddrs s } List.nodup_nil
  have hkeys : (st.candidates.entries.map Prod.fst).Nodup := by
    have hsorted := st.candidates.sorted
    rw [List.Nodup, List.pairwise_map]
    exact hsorted.imp fun h => ne_of_lt h
  obtain ⟨h1, h2, h3⟩ := freeAll_spec st.candidates.entries st.pool hcarving.cuts.placed hkeys
    fun e he => hcarving.cand e.1 e.2 (OrdMap.find?_eq_some_iff.mpr he)
  refine ⟨st, ⟨hcarving, hnd, fun z => ?_, h1, h2.trans hcarving.cuts.vmm, h3, rfl⟩, rfl⟩
  rw [hmem]
  simp

end Carving

end Pool

end Ccbase.Memory
