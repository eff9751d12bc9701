import Ccbase.Memory.Tidy
import Ccbase.Memory.Cut

/-!
# No two free neighbours

In every run two neighbours are never both idle or both eagerly free, whatever sizes
`Malloc` is asked for. `Unpaired` says so about the links of the buffers in the blocks of an
allocator; as in `AllocInv`, one buffer may be left out while a method works on it. The
module follows the methods of an allocator first and the operations of the pool after them.
-/

namespace Ccbase.Memory

open Ccbase.Lib Chain Relation

variable {ε : Type}

/-- No two neighbours in the blocks `own` are twins; `x` is not looked at. -/
def Unpaired (own : List Nat) (bufs : Heap MemBuf) (x : Option Nat) : Prop :=
  ∀ q y r e, bufs.get q = some y → y.memBlock ∈ own → y.next = some r →
    (dataOf bufs).get r = some e → x ≠ some q → x ≠ some r → ¬ Twins y.data e

section Links

variable {bufs bufs' : Heap MemBuf} {blocks : Heap MemBlock} {al : MemBufAllocator}
  {lay : Nat → List Nat} {x : Option Nat} {p q : Nat} {b : MemBuf}

/-- The buffer a link to the left leads to has a link back. -/
theorem AllocInv.next_of_prev (h : AllocInv bufs blocks al lay x) (hp : bufs.get p = some b)
    (hB : b.memBlock ∈ al.memBlocks) (hq : b.prev = some q) :
    ∃ y, bufs.get q = some y ∧ y.memBlock = b.memBlock ∧ y.next = some p := by
  obtain ⟨L, R, y, hlay, hy, hyB, -, -⟩ := h.left_neighbour hp hB hq
  obtain ⟨blk, -, hseg⟩ := h.chain _ hB
  obtain ⟨y', b', hy', -, hnext, -⟩ := hseg.adj ⟨L, R, hlay⟩
  rw [hy] at hy'
  cases hy'
  exact ⟨y, hy, hyB, hnext⟩

theorem AllocInv.prev_of_next (h : AllocInv bufs blocks al lay x) (hp : bufs.get p = some b)
    (hB : b.memBlock ∈ al.memBlocks) (hq : b.next = some q) :
    ∃ y, bufs.get q = some y ∧ y.memBlock = b.memBlock ∧ y.prev = some p := by
  obtain ⟨L, R, y, hlay, hy, hyB, -, -⟩ := h.right_neighbour hp hB hq
  obtain ⟨blk, -, hseg⟩ := h.chain _ hB
  obtain ⟨b', y', -, hy', -, hprev⟩ := hseg.adj ⟨L, R, hlay⟩
  rw [hy] at hy'
  cases hy'
  exact ⟨y, hy, hyB, hprev⟩

theorem Unpaired.detach {own : List Nat} (h : Unpaired own bufs none) (p : Nat) :
    Unpaired own bufs (some p) := fun q y r e hq hB hn hr _ _ =>
  h q y r e hq hB hn hr (by simp) (by simp)

/-- Nothing is said about the buffer that is left out. -/
theorem Unpaired.modify {own : List Nat} (h : Unpaired own bufs (some p)) (f : MemBuf → MemBuf)
    {g : BufData → BufData} (hfg : ∀ b, (f b).data = g b.data) :
    Unpaired own (bufs.modify p f) (some p) := by
  intro q y r e hq hB hn hr hxq hxr
  have hqp : q ≠ p := fun heq => hxq (by rw [heq])
  have hrp : r ≠ p := fun heq => hxr (by rw [heq])
  rw [Heap.get_modify_ne _ _ hqp] at hq
  rw [dataOf_modify hfg, Heap.get_modify_ne _ _ hrp] at hr
  exact h q y r e hq hB hn hr hxq hxr

/-- A buffer that is not free has no twin. -/
theorem Unpaired.attachUsed {own : List Nat} (h : Unpaired own bufs (some p))
    (hp : bufs.get p = some b) (hst : ¬ b.status.isFree) : Unpaired own bufs none := by
  intro q y r e hq hB hn hr _ _ htw
  by_cases hqp : q = p
  · subst hqp
    rw [hp] at hq
    cases hq
    exact hst htw.2
  · by_cases hrp : r = p
    · subst hrp
      rw [dataOf_get hp] at hr
      cases hr
      have hfree := htw.2
      rw [htw.1] at hfree
      exact hst hfree
    · exact h q y r e hq hB hn hr (fun heq => hqp (Option.some.inj heq).symm)
        (fun heq => hrp (Option.some.inj heq).symm) htw

/-- A buffer gets a status that is not free. -/
theorem Unpaired.hold {own : List Nat} {st : MemBufStatus} (h : Unpaired own bufs (some p))
    (hp : bufs.get p = some b) (hst : ¬ st.isFree) :
    Unpaired own (bufs.modify p fun x => { x with status := st }) none := by
  refine (h.modify (fun x => { x with status := st }) (g := fun d => { d with status := st })
    fun _ => rfl).attachUsed (b := { b with status := st }) ?_ hst
  rw [Heap.get_modify_self, hp]
  rfl

theorem Unpaired.attach (hinv : AllocInv bufs blocks al lay x)
    (h : Unpaired al.memBlocks bufs (some p)) (hp : bufs.get p = some b)
    (hleft : ∀ q e, b.prev = some q → (dataOf bufs).get q = some e → e.status ≠ b.status)
    (hright : ∀ r e, b.next = some r → (dataOf bufs).get r = some e → e.status ≠ b.status) :
    Unpaired al.memBlocks bufs none := by
  intro q y r e hq hB hn hr _ _ htw
  by_cases hqp : q = p
  · subst hqp
    rw [hp] at hq
    cases hq
    exact hright r e hn hr htw.1.symm
  · by_cases hrp : r = p
    · subst hrp
      obtain ⟨b', hb', -, hprev⟩ := hinv.prev_of_next hq hB hn
      rw [hp] at hb'
      cases hb'
      rw [dataOf_get hp] at hr
      cases hr
      exact hleft q y.data hprev (dataOf_get hq) htw.1
    · exact h q y r e hq hB hn hr (fun heq => hqp (Option.some.inj heq).symm)
        (fun heq => hrp (Option.some.inj heq).symm) htw

/-- Edits of other blocks are no concern. -/
theorem Unpaired.frame {own : List Nat} (hinv : AllocInv bufs blocks al lay none)
    (h : Unpaired al.memBlocks bufs none) (hout : Outside own bufs bufs')
    (hdisj : ∀ C ∈ al.memBlocks, C ∉ own) : Unpaired al.memBlocks bufs' none := by
  intro q y r e hq hB hn hr _ _
  have hq := (hout q y (hdisj _ hB)).mp hq
  obtain ⟨z, hz, hzB, -⟩ := hinv.prev_of_next hq hB hn
  have hz' := (hout r z (by rw [hzB]; exact hdisj _ hB)).mpr hz
  rw [dataOf_get hz'] at hr
  cases hr
  exact h q y r z.data hq hB hn (dataOf_get hz) (by simp) (by simp)

/-- A cut leaves the cut off part with the right neighbour of the buffer. -/
theorem Spliced.unpaired {rest : MemBuf} {n : Nat} (hs : Spliced bufs bufs' p b rest n)
    (hinv : AllocInv bufs blocks al lay x) (h : Unpaired al.memBlocks bufs none)
    (hp : bufs.get p = some b) (hB : b.memBlock ∈ al.memBlocks)
    (hst : rest.status = b.status ∨ ¬ rest.status.isFree) :
    Unpaired al.memBlocks bufs' (some p) := by
  have hdata := hs.data hp
  intro q y r e hq hyB hn hr hxq hxr htw
  have hqp : q ≠ p := fun heq => hxq (by rw [heq])
  have hrp : r ≠ p := fun heq => hxr (by rw [heq])
  rw [hdata, Heap.get_modify_ne _ _ hrp, Heap.get_new, dataOf_next] at hr
  by_cases hqn : q = bufs.next
  · subst hqn
    rw [hs.right] at hq
    cases hq
    have hnext : b.next = some r := hn
    obtain ⟨z, hz, -, -⟩ := hinv.prev_of_next hp hB hnext
    rw [if_neg (Heap.ne_next hz)] at hr
    rcases hst with hst | hst
    · refine h p b r e hp hB hnext hr (by simp) (by simp) ⟨?_, ?_⟩
      · exact hst.symm.trans htw.1
      · show b.status.isFree
        rw [← hst]
        exact htw.2
    · exact hst htw.2
  · have hold : ∃ y₀, bufs.get q = some y₀ ∧ y₀.data = y.data ∧ y₀.next = y.next := by
      rw [hs.others q hqp hqn] at hq
      cases hbn : b.next with
      | none =>
          rw [hbn] at hq
          exact ⟨y, hq, rfl, rfl⟩
      | some nx =>
          rw [hbn, Heap.modify?_some, Heap.get_modify] at hq
          split at hq
          · rename_i heq
            obtain ⟨y₀, hy₀, rfl⟩ := Option.map_eq_some_iff.mp hq
            exact ⟨y₀, by rw [heq]; exact hy₀, rfl, rfl⟩
          · exact ⟨y, hq, rfl, rfl⟩
    obtain ⟨y₀, hy₀, hdat, hnx⟩ := hold
    have hB₀ : y₀.memBlock ∈ al.memBlocks := by
      rw [show y₀.memBlock = y.memBlock from congrArg BufData.memBlock hdat]
      exact hyB
    obtain ⟨z, hz, -, -⟩ := hinv.prev_of_next hy₀ hB₀ (hnx.trans hn)
    rw [if_neg (Heap.ne_next hz)] at hr
    refine h q y₀ r e hy₀ hB₀ (hnx.trans hn) hr (by simp) (by simp) ?_
    rw [hdat]
    exact htw

end Links

/-! ## The methods of an allocator -/

namespace MemBufAllocator

variable {c c' : Ctx ε} {lay : Nat → List Nat} {p : Nat} {b : MemBuf}

theorem mergePrev_unpaired (h : AllocInv c.bufs c.blocks c.alloc lay (some p))
    (hu : Unpaired c.alloc.memBlocks c.bufs (some p)) (hp : c.bufs.get p = some b)
    (hB : b.memBlock ∈ c.alloc.memBlocks) (hfree : b.status.isFree) :
    Unpaired c.alloc.memBlocks (mergePrev p b.status c).bufs (some p) ∧
      ∀ b' q e, (mergePrev p b.status c).bufs.get p = some b' → b'.prev = some q →
        (dataOf (mergePrev p b.status c).bufs).get q = some e → e.status ≠ b.status := by
  rcases mergePrev_cases h hp hB hfree with ⟨heq, hleft⟩ |
      ⟨L, q, R, y, b₁, hlay, hy, hst, -, hbufs, -, -⟩
  · rw [heq]
    refine ⟨hu, fun b' q e hb' hprev he => ?_⟩
    rw [hp] at hb'
    cases hb'
    obtain ⟨z, hz, rfl⟩ := dataOf_get_some he
    exact hleft q z hprev hz
  · rw [hbufs]
    have hnd := h.nodup _ hB
    rw [hlay] at hnd
    have hpq : p ≠ q := fun heq => by
      rw [heq] at hnd
      simpa using (List.nodup_append.mp hnd).2.1
    have hyB : y.memBlock = b.memBlock := by
      obtain ⟨y', hy', hB'⟩ := h.memBlock_of_mem hB (p := q) (by rw [hlay]; simp)
      rw [hy] at hy'
      cases hy'
      exact hB'
    have hdata : ∀ r, r ≠ p → r ≠ q →
        (dataOf ((absorbPrev p y c.bufs).delete q)).get r = (dataOf c.bufs).get r := by
      intro r hr hr'
      rw [dataOf_delete, Heap.get_delete_ne _ hr', dataOf_absorbPrev, Heap.get_modify_ne _ _ hr]
    have hyp : y.prev ≠ some p := by
      obtain ⟨blk, -, hseg⟩ := h.chain _ hB
      rw [hlay] at hseg
      obtain ⟨y', hy', hprev, -⟩ := hseg.split
      rw [hy] at hy'
      cases hy'
      have hprev : y.prev = L.getLast? := by simpa using hprev
      rw [hprev]
      intro heq
      exact (List.nodup_append.mp hnd).2.2 p (List.mem_of_mem_getLast? heq) p (by simp) rfl
    constructor
    · intro s w r e hs hwB hwn hr hxs hxr
      have hsp : s ≠ p := fun heq => hxs (by rw [heq])
      have hrp : r ≠ p := fun heq => hxr (by rw [heq])
      rw [Heap.get_delete] at hs
      split at hs
      · cases hs
      · rw [absorbPrev_get_ne hsp] at hs
        have hold : c.bufs.get s = some w := by
          cases hyl : y.prev with
          | none =>
              rw [hyl] at hs
              exact hs
          | some u =>
              rw [hyl, Heap.modify?_some, Heap.get_modify] at hs
              split at hs
              · -- the left neighbour of `q` is linked to `p` now
                obtain ⟨w₀, -, rfl⟩ := Option.map_eq_some_iff.mp hs
                exact absurd (Option.some.inj hwn).symm hrp
              · exact hs
        have hrq : r ≠ q := fun heq => by
          rw [heq, dataOf_delete, Heap.get_delete_self] at hr
          cases hr
        rw [hdata r hrp hrq] at hr
        exact hu s w r e hold hwB hwn hr hxs hxr
    · intro b' u e hb' hprev he
      rw [Heap.get_delete_ne _ hpq, absorbPrev_get_self hp hyp] at hb'
      cases hb'
      have hprev : y.prev = some u := hprev
      obtain ⟨w, hw, hwB, hwn⟩ := h.next_of_prev hy (by rw [hyB]; exact hB) hprev
      have hup : u ≠ p := fun heq => hyp (by rw [hprev, heq])
      have huq : u ≠ q := fun heq => by
        rw [heq, dataOf_delete, Heap.get_delete_self] at he
        cases he
      rw [hdata u hup huq, dataOf_get hw] at he
      cases he
      intro heq
      refine hu u w q y.data hw (by rw [hwB, hyB]; exact hB) hwn (dataOf_get hy)
        (fun h => hup (Option.some.inj h).symm) (fun h => hpq (Option.some.inj h)) ⟨?_, ?_⟩
      · exact heq.trans hst.symm
      · rw [heq]
        exact hfree

theorem mergeNext_unpaired (h : AllocInv c.bufs c.blocks c.alloc lay (some p))
    (hu : Unpaired c.alloc.memBlocks c.bufs (some p)) (hp : c.bufs.get p = some b)
    (hB : b.memBlock ∈ c.alloc.memBlocks) (hfree : b.status.isFree) :
    Unpaired c.alloc.memBlocks (mergeNext p b.status c).bufs (some p) ∧
      (∀ b' q e, (mergeNext p b.status c).bufs.get p = some b' → b'.next = some q →
        (dataOf (mergeNext p b.status c).bufs).get q = some e → e.status ≠ b.status) ∧
      ∀ b' q e, (mergeNext p b.status c).bufs.get p = some b' → b'.prev = some q →
        (dataOf (mergeNext p b.status c).bufs).get q = some e →
        b.prev = some q ∧ (dataOf c.bufs).get q = some e := by
  rcases mergeNext_cases h hp hB hfree with ⟨heq, hright⟩ |
      ⟨L, q, R, y, b₁, hlay, hy, hst, -, hbufs, -, -⟩
  · rw [heq]
    refine ⟨hu, fun b' q e hb' hnext he => ?_, fun b' q e hb' hprev he => ?_⟩
    · rw [hp] at hb'
      cases hb'
      obtain ⟨z, hz, rfl⟩ := dataOf_get_some he
      exact hright q z hnext hz
    · rw [hp] at hb'
      cases hb'
      exact ⟨hprev, he⟩
  · rw [hbufs]
    have hnd := h.nodup _ hB
    rw [hlay] at hnd
    have hpq : p ≠ q := fun heq => by
      rw [heq] at hnd
      simpa using (List.nodup_append.mp hnd).2.1
    have hyB : y.memBlock = b.memBlock := by
      obtain ⟨y', hy', hB'⟩ := h.memBlock_of_mem hB (p := q) (by rw [hlay]; simp)
      rw [hy] at hy'
      cases hy'
      exact hB'
    have hdata : ∀ r, r ≠ p → r ≠ q →
        (dataOf ((absorbNext p y c.bufs).delete q)).get r = (dataOf c.bufs).get r := by
      intro r hr hr'
      rw [dataOf_delete, Heap.get_delete_ne _ hr', dataOf_absorbNext, Heap.get_modify_ne _ _ hr]
    have hyp : y.next ≠ some p := by
      obtain ⟨blk, -, hseg⟩ := h.chain _ hB
      rw [hlay, show L ++ p :: q :: R = (L ++ [p]) ++ q :: R by simp] at hseg
      obtain ⟨y', hy', -, hnext, -⟩ := hseg.split
      rw [hy] at hy'
      cases hy'
      have hnext : y.next = R.head? := by simpa using hnext
      rw [hnext]
      intro heq
      have hpR := (List.nodup_cons.mp (List.nodup_append.mp hnd).2.1).1
      exact hpR (List.mem_cons_of_mem _ (List.mem_of_head? heq))
    have hget : (((absorbNext p y c.bufs).delete q).get p) =
        some { b with next := y.next, size := b.size + y.size } := by
      rw [Heap.get_delete_ne _ hpq, absorbNext_get_self hp hyp]
    have hqgone : ∀ r e, (dataOf ((absorbNext p y c.bufs).delete q)).get r = some e →
        r ≠ q := by
      intro r e he heq
      rw [heq, dataOf_delete, Heap.get_delete_self] at he
      cases he
    refine ⟨?_, ?_, ?_⟩
    · intro s w r e hs hwB hwn hr hxs hxr
      have hsp : s ≠ p := fun heq => hxs (by rw [heq])
      have hrp : r ≠ p := fun heq => hxr (by rw [heq])
      rw [hdata r hrp (hqgone r e hr)] at hr
      rw [Heap.get_delete] at hs
      split at hs
      · cases hs
      · rw [absorbNext_get_ne hsp] at hs
        have hold : ∃ w₀, c.bufs.get s = some w₀ ∧ w₀.data = w.data ∧ w₀.next = w.next := by
          cases hyr : y.next with
          | none =>
              rw [hyr] at hs
              exact ⟨w, hs, rfl, rfl⟩
          | some u =>
              rw [hyr, Heap.modify?_some, Heap.get_modify] at hs
              split at hs
              · rename_i heq
                obtain ⟨w₀, hw₀, rfl⟩ := Option.map_eq_some_iff.mp hs
                exact ⟨w₀, by rw [heq]; exact hw₀, rfl, rfl⟩
              · exact ⟨w, hs, rfl, rfl⟩
        obtain ⟨w₀, hw₀, hdat, hnx⟩ := hold
        rw [← hdat]
        refine hu s w₀ r e hw₀ ?_ (hnx.trans hwn) hr hxs hxr
        rw [show w₀.memBlock = w.memBlock from congrArg BufData.memBlock hdat]
        exact hwB
    · intro b' u e hb' hnext he
      rw [hget] at hb'
      cases hb'
      have hnext : y.next = some u := hnext
      obtain ⟨z, hz, -, -⟩ := h.prev_of_next hy (by rw [hyB]; exact hB) hnext
      have hup : u ≠ p := fun heq => hyp (by rw [hnext, heq])
      rw [hdata u hup (hqgone u e he)] at he
      intro heq
      refine hu q y u e hy (by rw [hyB]; exact hB) hnext he
        (fun h => hpq (Option.some.inj h)) (fun h => hup (Option.some.inj h).symm) ⟨?_, ?_⟩
      · exact hst.trans heq.symm
      · show y.status.isFree
        rw [hst]
        exact hfree
    · intro b' u e hb' hprev he
      rw [hget] at hb'
      cases hb'
      have hprev : b.prev = some u := hprev
      refine ⟨hprev, ?_⟩
      have hup : u ≠ p := by
        obtain ⟨w, hw, -, hwn⟩ := h.next_of_prev hp hB hprev
        intro heq
        rw [heq, hp] at hw
        cases hw
        exact (next_ne_of_inv h hp hB).1 hwn
      rw [hdata u hup (hqgone u e he)] at he
      exact he

/-- `Free` leaves no twin next to the buffer. -/
theorem coalesce_unpaired (target : MemBufStatus)
    (h : AllocInv c.bufs c.blocks c.alloc lay (some p))
    (hu : Unpaired c.alloc.memBlocks c.bufs (some p)) (hp : c.bufs.get p = some b)
    (hB : b.memBlock ∈ c.alloc.memBlocks) (hquiet : b.isEventNotUsed = true)
    (htarget : target.isFree) :
    Unpaired c.alloc.memBlocks (coalesce p target c).bufs none := by
  have h₁ := tagged_inv target h hp hB hquiet
  have hu₁ : Unpaired c.alloc.memBlocks (tagged p target c).bufs (some p) :=
    hu.modify _ (g := fun d => { d with status := target }) fun _ => rfl
  obtain ⟨lay₂, b₂, m₂⟩ := mergePrev_spec h₁ (tagged_get target hp) hB htarget
  obtain ⟨hu₂, hleft⟩ := mergePrev_unpaired h₁ hu₁ (tagged_get target hp) hB htarget
  have hst₂ : b₂.status = target := m₂.status
  have hown₂ : (mergePrev p target (tagged p target c)).alloc.memBlocks =
      c.alloc.memBlocks := m₂.own
  have hB₂ : b₂.memBlock ∈ (mergePrev p target (tagged p target c)).alloc.memBlocks := by
    rw [m₂.own, m₂.memBlock]
    exact hB
  obtain ⟨lay₃, b₃, m₃⟩ := mergeNext_spec m₂.inv m₂.get hB₂ (by rw [hst₂]; exact htarget)
  have hu₂ : Unpaired (mergePrev p target (tagged p target c)).alloc.memBlocks
      (mergePrev p target (tagged p target c)).bufs (some p) := by
    rw [hown₂]
    exact hu₂
  obtain ⟨hu₃, hright, hkept⟩ := mergeNext_unpaired m₂.inv hu₂ m₂.get hB₂
    (by rw [hst₂]; exact htarget)
  rw [hst₂] at m₃ hu₃ hright hkept
  have hst₃ : b₃.status = target := m₃.status.trans hst₂
  have hfin := Unpaired.attach m₃.inv (by rw [m₃.own]; exact hu₃) m₃.get
    (fun q e hprev he => by
      obtain ⟨hprev', he'⟩ := hkept b₃ q e m₃.get hprev he
      rw [hst₃]
      exact hleft b₂ q e m₂.get hprev' he')
    (fun r e hnext he => by
      rw [hst₃]
      exact hright b₃ r e m₃.get hnext he)
  rw [m₃.own, hown₂] at hfin
  exact hfin

theorem takeMemBuf_unpaired {size : Nat} (h : AllocInv c.bufs c.blocks c.alloc lay (some p))
    (hu : Unpaired c.alloc.memBlocks c.bufs none) (hp : c.bufs.get p = some b)
    (hB : b.memBlock ∈ c.alloc.memBlocks) :
    Unpaired c.alloc.memBlocks (takeMemBuf p size b c).bufs none := by
  unfold takeMemBuf
  split
  · obtain ⟨hnp, hnq⟩ := next_ne_of_inv h hp hB
    have hspl := linkBehind_spliced (remainingBuf b size) size hp hnp hnq rfl
    have hu' := hspl.unpaired h hu hp hB (.inl rfl)
    have hbufs : (splitMemBuf p size b c).bufs = (linkBehind p b (remainingBuf b size)
        c.bufs).modify p fun x => { x with size := size } := rfl
    rw [← hbufs] at hspl hu'
    exact hu'.hold hspl.left Arena.not_isFree_used
  · exact (hu.detach p).hold hp Arena.not_isFree_used

theorem takeMemBuf_memBlocks (p size : Nat) (b : MemBuf) (c : Ctx ε) :
    (takeMemBuf p size b c).alloc.memBlocks = c.alloc.memBlocks := by
  unfold takeMemBuf splitMemBuf markUsed
  split
  · dsimp only
    split <;> rfl
  · rfl

theorem mapAndSplitMemBuf_unpaired {cb : Callbacks ε} {size : Nat} {r : Option Nat}
    (h : AllocInv c.bufs c.blocks c.alloc lay (some p))
    (hu : Unpaired c.alloc.memBlocks c.bufs none) (hp : c.bufs.get p = some b)
    (hB : b.memBlock ∈ c.alloc.memBlocks)
    (hres : mapAndSplitMemBuf cb p size c = some (r, c')) :
    Unpaired c.alloc.memBlocks c'.bufs none ∧ c'.alloc.memBlocks = c.alloc.memBlocks := by
  simp only [mapAndSplitMemBuf, hp] at hres
  split at hres
  · obtain ⟨⟨n, env⟩, hcb, hres⟩ := Option.bind_eq_some_iff.mp hres
    dsimp only at hres
    split at hres
    · cases hres
      exact ⟨hu, rfl⟩
    · cases hres
      exact ⟨takeMemBuf_unpaired (c := { c with env }) h hu hp hB, takeMemBuf_memBlocks ..⟩
  · cases hres
    exact ⟨takeMemBuf_unpaired h hu hp hB, takeMemBuf_memBlocks ..⟩

theorem mallocExpandBlock_unpaired {cb : Callbacks ε} {size : Nat} {r : Option Nat}
    (h : AllocInv c.bufs c.blocks c.alloc lay none) (hcan : CanExpand cb c)
    (hu : Unpaired c.alloc.memBlocks c.bufs none)
    (hres : mallocExpandBlock cb size c = some (r, c')) :
    Unpaired c'.alloc.memBlocks c'.bufs none := by
  unfold mallocExpandBlock expandBlock at hres
  obtain ⟨⟨B, c₁⟩, hexp, hres⟩ := Option.bind_eq_some_iff.mp hres
  obtain ⟨⟨blk?, env⟩, hcb, hexp⟩ := Option.bind_eq_some_iff.mp hexp
  cases blk? with
  | none =>
      cases hexp
      cases hres
      exact hu
  | some blk =>
      cases hexp
      simp only [Heap.get_new_self] at hres
      generalize hb : blockBuf blk c.blocks.next c.alloc.enableEagerFree = b at hres
      have hinv := h.expand (b := b) blk (hcan.apart size blk env hcb) hcan.fresh
        (by rw [← hb]; rfl) (by rw [← hb]; rfl) (by rw [← hb]; rfl) (by rw [← hb]; rfl)
        (by rw [← hb]; rfl) (by rw [← hb]; rfl)
      have hB : b.memBlock = c.blocks.next := by rw [← hb]; rfl
      -- the new buffer has no neighbours
      have hnew : Unpaired (c.alloc.memBlocks ++ [c.blocks.next]) (c.bufs.new b) none := by
        intro q y s e hq hyB hn hs _ _
        rw [Heap.get_new] at hq
        split at hq
        · cases hq
          rw [← hb] at hn
          cases hn
        · have hown : y.memBlock ∈ c.alloc.memBlocks := by
            rcases List.mem_append.mp hyB with hyB | hyB
            · exact hyB
            · exact absurd (List.mem_singleton.mp hyB) (hcan.fresh q y.data (dataOf_get hq))
          obtain ⟨z, hz, -, -⟩ := h.prev_of_next hq hown hn
          rw [dataOf_new, Heap.get_new, dataOf_next, if_neg (Heap.ne_next hz)] at hs
          exact hu q y s e hq hown hn hs (by simp) (by simp)
      split at hres
      · obtain ⟨rfl, rfl⟩ := Prod.mk.inj (Option.some.inj hres)
        dsimp only
        split <;> exact hnew
      · obtain ⟨hfin, hown⟩ := mapAndSplitMemBuf_unpaired
          (c := { alloc := { c.alloc with memBlocks := c.alloc.memBlocks ++ [c.blocks.next] }
                  bufs := c.bufs.new b, blocks := c.blocks.new blk, env := env })
          hinv hnew (Heap.get_new_self _ _) (by rw [hB]; simp) hres
        rw [hown]
        exact hfin

theorem malloc_unpaired {cb : Callbacks ε} {size : Nat} {r : Option Nat}
    (h : AllocInv c.bufs c.blocks c.alloc lay none) (hcan : CanExpand cb c)
    (hu : Unpaired c.alloc.memBlocks c.bufs none)
    (hres : malloc cb size c = some (r, c')) : Unpaired c'.alloc.memBlocks c'.bufs none := by
  unfold malloc at hres
  split at hres
  · exact mallocExpandBlock_unpaired h hcan hu hres
  · split at hres
    · rename_i p hp
      obtain ⟨b, hb, hB, hst, -⟩ := lowerBound_fits h.free hp
      obtain ⟨hfin, hown⟩ := mapAndSplitMemBuf_unpaired
        (c := { c with alloc := { c.alloc with freeMemBufs := c.alloc.freeMemBufs.erase p } })
        (h.eraseFree hb hst) hu hb hB hres
      rw [hown]
      exact hfin
    · split at hres
      · rename_i p hp
        obtain ⟨b, hb, hB, hst, -⟩ := lowerBound_fits h.eager hp
        obtain ⟨hfin, hown⟩ := mapAndSplitMemBuf_unpaired
          (c := { c with alloc := { c.alloc with
            eagerFreeMemBufs := c.alloc.eagerFreeMemBufs.erase p } })
          (h.eraseEagerFree hb hst) hu hb hB hres
        rw [hown]
        exact hfin
      · cases hres
        exact hu

theorem eagerFreeAll_unpaired {ps : List Nat} {total total' : Nat}
    (h : AllocInv c.bufs c.blocks { c.alloc with freeMemBufs := ps } lay none)
    (hu : Unpaired c.alloc.memBlocks c.bufs none)
    (hres : eagerFreeAll ps total c = (total', c')) :
    Unpaired c'.alloc.memBlocks c'.bufs none := by
  induction ps generalizing c lay total with
  | nil =>
      cases hres
      exact hu
  | cons p ps ih =>
      obtain ⟨_, d, hd, hB, hst⟩ := h.free.sound p (by simp)
      obtain ⟨b, hb, rfl⟩ := dataOf_get_some hd
      have hst : b.status = .idle := hst
      have hB : b.memBlock ∈ c.alloc.memBlocks := hB
      have hquiet : b.isEventNotUsed = true := h.quiet p _ hd hB (.inl hst)
      have hdet := h.eraseFree hb hst
      simp only [List.erase_cons_head] at hdet
      obtain ⟨lay₁, hco⟩ := coalesce_spec (c := withFree ps c) .eagerFree hdet hb hB
        hquiet (.inr rfl)
      have hu₁ := coalesce_unpaired (c := withFree ps c) .eagerFree hdet (hu.detach p) hb hB
        hquiet (.inr rfl)
      rw [coalesce_withFree] at hco hu₁
      have hfree : (free p .eagerFree c).2 = coalesce p .eagerFree c := by
        unfold free
        simp only [hb, hquiet, Bool.not_true, Bool.false_eq_true, if_false]
      simp only [eagerFreeAll, hb, Option.map_some, Option.getD_some, hfree] at hres
      have hown : (coalesce p .eagerFree c).alloc.memBlocks = c.alloc.memBlocks := hco.own
      refine ih (c := coalesce p .eagerFree c) hco.inv ?_ hres
      rw [hown]
      exact hu₁

theorem freeIdleMemsByEagerFree_unpaired {cb : Callbacks ε} {sizes : Nat × Nat}
    (h : AllocInv c.bufs c.blocks c.alloc lay none)
    (hu : Unpaired c.alloc.memBlocks c.bufs none)
    (hres : freeIdleMemsByEagerFree cb c = some (sizes, c')) :
    Unpaired c'.alloc.memBlocks c'.bufs none := by
  unfold freeIdleMemsByEagerFree at hres
  generalize hwalk : eagerFreeAll c.alloc.freeMemBufs 0 c = walk at hres
  obtain ⟨total, c₁⟩ := walk
  obtain ⟨lay', n, hinv, -, -, -, -⟩ := eagerFreeAll_spec cb h hwalk (by decide)
  have hu₁ := eagerFreeAll_unpaired h hu hwalk
  obtain ⟨⟨real, c₂⟩, hdev, hres⟩ := Option.bind_eq_some_iff.mp hres
  cases hres
  obtain ⟨⟨env, rfl⟩, -⟩ := memEagerFreeAll_spec
    (c := { c₁ with alloc := { c₁.alloc with freeMemBufs := [] } })
    (fun p hp => (hinv.eager.sound p hp).2) hdev
  exact hu₁

end MemBufAllocator

end Ccbase.Memory
