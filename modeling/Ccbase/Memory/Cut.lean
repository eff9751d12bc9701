import Ccbase.Memory.Runs

/-!
# Cutting a buffer in use

`FreePartTensorMems` and `AllocContinuousTensorMem` cut buffers that are in use: a buffer
keeps its first bytes, and the rest becomes a buffer of its own, linked right behind it and
entered into the address map. The two write sizes and links in an order of their own;
`cutAt` is the order they agree with, and `cutAt_spec` says what it is on the arena.
-/

namespace Ccbase.Memory

open Ccbase.Lib Chain Relation

variable {δ : Type} {dev : Device δ}

/-! ## Links -/

@[simp] theorem dataOf_linkMemBuf (bufs : Heap MemBuf) (p : Nat) (prev next : Option Nat) :
    dataOf (linkMemBuf bufs p prev next) = dataOf bufs := by
  unfold linkMemBuf
  cases prev <;> cases next <;> simp

@[simp] theorem linkMemBuf_next (bufs : Heap MemBuf) (p : Nat) (prev next : Option Nat) :
    (linkMemBuf bufs p prev next).next = bufs.next := by
  unfold linkMemBuf
  cases prev <;> cases next <;> rfl

theorem linkMemBuf_spliced {bufs : Heap MemBuf} {p : Nat} {b : MemBuf} (rest : MemBuf) (n : Nat)
    (hp : bufs.get p = some b) (hnp : b.next ≠ some p) (hnq : b.next ≠ some bufs.next)
    (hrest : rest.next = none) :
    Spliced bufs (linkMemBuf ((bufs.modify p fun x => { x with size := n }).new rest) bufs.next
      (some p) b.next) p b rest n := by
  have hpq : p ≠ bufs.next := Heap.ne_next hp
  unfold linkMemBuf
  cases hbn : b.next with
  | none =>
      refine ⟨rfl, ?_, ?_, ?_⟩
      · simp [Heap.get_modify, Heap.get_new, hpq, hp]
      · simp [Heap.get_modify, Heap.get_new, hpq.symm, hrest, hbn]
      · intro r hrp hrq
        simp [Heap.get_modify, Heap.get_new, hrp, hrq, hbn]
  | some nx =>
      have hnp : nx ≠ p := fun heq => hnp (by rw [hbn, heq])
      have hnq : nx ≠ bufs.next := fun heq => hnq (by rw [hbn, heq])
      refine ⟨rfl, ?_, ?_, ?_⟩
      · simp [Heap.get_modify, Heap.get_new, hpq, hp, hnp.symm]
      · simp [Heap.get_modify, Heap.get_new, hpq.symm, hnq.symm, hbn]
      · intro r hrp hrq
        rw [hbn]
        simp only [Heap.get_modify, Heap.get_new, Heap.next_modify, hrp, hrq, if_false, hnq, hnp,
          Heap.modify?_some]
        rfl

namespace Arena

variable {vmm : Bool} {law : DeviceLaw dev} {b₀ : Nat} {A A' : Arena δ}

/-- The buffer `p` in use has been cut behind its first `n` bytes. -/
inductive Cut (p n : Nat) (rest : BufData) (A : Arena δ) : Arena δ → Prop where
  | mk {k : AllocatorKey} {d : BufData} (hlive : A.live.lookup d.addr = some (p, k))
      (hp : A.bufs.get p = some d) (hn : n ≤ d.size) (hst : ¬ rest.status.isFree)
      (hB : rest.memBlock = d.memBlock) (haddr : rest.addr = d.addr + n)
      (hsize : rest.size = d.size - n) (hquiet : rest.isEventNotUsed = true)
      (hfresh : A.live.lookup rest.addr = none) :
      Cut p n rest A
        { A with
          bufs := (A.bufs.new rest).modify p fun x => { x with size := n }
          live := A.live.insert rest.addr (A.bufs.next, k) }

/-- The two parts and what is left alone. -/
structure CutFrame (p n : Nat) (k : AllocatorKey) (d rest : BufData) (A A' : Arena δ) :
    Prop where
  live : A.live.lookup d.addr = some (p, k)
  get : A.bufs.get p = some d
  le : n ≤ d.size
  rest_status : ¬ rest.status.isFree
  rest_block : rest.memBlock = d.memBlock
  rest_addr : rest.addr = d.addr + n
  rest_size : rest.size = d.size - n
  rest_quiet : rest.isEventNotUsed = true
  fresh : A.live.lookup rest.addr = none
  left : A'.bufs.get p = some { d with size := n }
  right : A'.bufs.get A.bufs.next = some rest
  others : ∀ r, r ≠ p → r ≠ A.bufs.next → A'.bufs.get r = A.bufs.get r
  lookup : ∀ a, A'.live.lookup a =
    if a = rest.addr then some (A.bufs.next, k) else A.live.lookup a
  blocks : A'.blocks = A.blocks
  owns : A'.owns = A.owns
  pairs : A'.pairs = A.pairs
  env : A'.env = A.env

theorem Cut.frame {p n : Nat} {rest : BufData} (h : Cut p n rest A A') :
    ∃ k d, CutFrame p n k d rest A A' := by
  cases h with
  | @mk k d hlive hp hn hst hB haddr hsize hquiet hfresh =>
      have hpn : p ≠ A.bufs.next := Heap.ne_next hp
      refine ⟨k, d, hlive, hp, hn, hst, hB, haddr, hsize, hquiet, hfresh, ?_, ?_, ?_, ?_, rfl,
        rfl, rfl, rfl⟩
      · rw [Heap.get_modify_self, Heap.get_new, if_neg hpn, hp]
        rfl
      · rw [Heap.get_modify_ne _ _ hpn.symm, Heap.get_new_self]
      · intro r hr hr'
        rw [Heap.get_modify_ne _ _ hr, Heap.get_new, if_neg hr']
      · intro a
        by_cases ha : a = rest.addr
        · rw [if_pos ha, ha]
          exact AList.lookup_insert _
        · rw [if_neg ha]
          exact AList.lookup_insert_ne ha

/-- What a buffer is after a cut. -/
theorem CutFrame.cases {p n : Nat} {k : AllocatorKey} {d rest : BufData}
    (h : CutFrame p n k d rest A A') {r : Nat} {e : BufData} (hr : A'.bufs.get r = some e) :
    (r = p ∧ e = { d with size := n }) ∨ (r = A.bufs.next ∧ e = rest) ∨
      (r ≠ p ∧ r ≠ A.bufs.next ∧ A.bufs.get r = some e) := by
  by_cases hrp : r = p
  · subst hrp
    rw [h.left] at hr
    cases hr
    exact .inl ⟨rfl, rfl⟩
  · by_cases hrn : r = A.bufs.next
    · subst hrn
      rw [h.right] at hr
      cases hr
      exact .inr (.inl ⟨rfl, rfl⟩)
    · rw [h.others r hrp hrn] at hr
      exact .inr (.inr ⟨hrp, hrn, hr⟩)

theorem Base.cut {p n : Nat} {rest : BufData} (h : Base law vmm b₀ A) (hc : Cut p n rest A A') :
    Base law vmm b₀ A' := by
  obtain ⟨k, d, hf⟩ := hc.frame
  obtain ⟨d', hd', ha, hst, hB⟩ := h.live _ _ _ hf.live
  rw [hf.get] at hd'
  cases hd'
  refine ⟨?_, ?_, ?_, ?_, ?_, ?_, ?_, ?_⟩
  · rw [hf.blocks]
    exact h.start
  · rw [hf.owns]
    exact h.low
  · rw [hf.owns]
    exact h.excl
  · rw [hf.owns, hf.blocks, hf.env]
    exact h.held
  · rw [hf.blocks]
    intro r e he
    rcases hf.cases he with ⟨-, rfl⟩ | ⟨-, rfl⟩ | ⟨-, -, he⟩
    · exact h.bufBelow p d hf.get
    · rw [hf.rest_block]
      exact h.bufBelow p d hf.get
    · exact h.bufBelow r e he
  · rw [hf.owns]
    intro r e he hlow
    rcases hf.cases he with ⟨-, rfl⟩ | ⟨-, rfl⟩ | ⟨-, -, he⟩
    · exact ⟨k, hB⟩
    · rw [hf.rest_block]
      exact ⟨k, hB⟩
    · exact h.owned r e he hlow
  · intro r e he hlow hfree
    rcases hf.cases he with ⟨-, rfl⟩ | ⟨-, rfl⟩ | ⟨-, -, he⟩
    · exact absurd hfree hst
    · exact hf.rest_quiet
    · exact h.quiet r e he hlow hfree
  · rw [hf.owns]
    intro a q k' hl
    rw [hf.lookup] at hl
    split at hl
    · rename_i haddr
      cases hl
      refine ⟨rest, hf.right, haddr.symm, hf.rest_status, ?_⟩
      rw [hf.rest_block]
      exact hB
    · obtain ⟨e, he, hea, hest, heB⟩ := h.live a q k' hl
      by_cases hqp : q = p
      · subst hqp
        rw [hf.get] at he
        cases he
        exact ⟨_, hf.left, hea, hest, heB⟩
      · exact ⟨e, by rw [hf.others q hqp (Heap.ne_next he)]; exact he, hea, hest, heB⟩

end Arena

namespace Pool

variable {law : DeviceLaw dev} {b₀ : Nat} {s s' : Pool δ} {k : AllocatorKey}
  {al : MemBufAllocator} {p n : Nat} {b rest : MemBuf}

/-- The buffer `p` keeps its first `n` bytes, and `rest` is put behind it. -/
def cutAt (p n : Nat) (rest : MemBuf) (k : AllocatorKey) (s : Pool δ) : Pool δ :=
  (insertBehind p rest k
    { s with bufs := s.bufs.modify p fun x => { x with size := n } }).2

/-- The sets of an allocator do not hold a buffer in use, cut or not. -/
theorem SetOk.cutUsed {D : Heap BufData} {own : List Nat} {st : MemBufStatus} {ps : List Nat}
    {d e : BufData} (h : SetOk D own st ps none) (hp : D.get p = some d) (hd : d.status ≠ st)
    (he : e.status ≠ st) :
    SetOk ((D.new e).modify p fun x => { x with size := n }) own st ps none := by
  have hpn : p ≠ D.next := Heap.ne_next hp
  refine (((h.detach hp hd).new_ne he).modify _).attach (d := { d with size := n }) ?_ hd
  rw [Heap.get_modify_self, Heap.get_new, if_neg hpn, hp]
  rfl

theorem cutAt_eq (hb : s.bufs.get p = some b) (hfresh :
    s.addrMemBufAllocators.lookup rest.addr = none) :
    cutAt p n rest k s = { s with
      bufs := linkMemBuf ((s.bufs.modify p fun x => { x with size := n }).new rest) s.bufs.next
        (some p) b.next
      addrMemBufAllocators := s.addrMemBufAllocators.insert rest.addr (s.bufs.next, k) } := by
  have hpn : p ≠ s.bufs.next := Heap.ne_next hb
  unfold cutAt insertBehind emplaceAddr
  simp [hfresh, Heap.get_new, hpn, hb]

theorem cutAt_spec (h : Inv law b₀ s)
    (hl : s.addrMemBufAllocators.lookup b.addr = some (p, k)) (hb : s.bufs.get p = some b)
    (hn : n ≤ b.size) (hst : ¬ rest.status.isFree) (hB : rest.memBlock = b.memBlock)
    (haddr : rest.addr = b.addr + n) (hsize : rest.size = b.size - n)
    (hquiet : rest.isEventNotUsed = true) (hnext : rest.next = none)
    (hfresh : s.addrMemBufAllocators.lookup rest.addr = none) :
    Does law b₀ s (cutAt p n rest k s) (Arena.Cut p n rest.data) := by
  obtain ⟨al, b', hal, hb', _, hstb, hBal⟩ := h.lookup hl
  rw [hb] at hb'
  cases hb'
  obtain ⟨lay, hlay⟩ := h.alloc
  have hinv := hlay k al hal
  obtain ⟨hnp, hnq⟩ := MemBufAllocator.next_ne_of_inv (c := s.ctx al) hinv hb hBal
  have hspl := linkMemBuf_spliced rest n hb hnp hnq hnext
  have hdata := hspl.data hb
  rw [cutAt_eq hb hfresh]
  generalize linkMemBuf ((s.bufs.modify p fun x => { x with size := n }).new rest) s.bufs.next
    (some p) b.next = bufs' at hspl hdata
  have hcut : Arena.Cut p n rest.data s.arena ({ s with
      bufs := bufs'
      addrMemBufAllocators := s.addrMemBufAllocators.insert rest.addr (s.bufs.next, k) } :
        Pool δ).arena := by
    have hc : Arena.Cut p n rest.data s.arena _ :=
      .mk hl (dataOf_get hb) hn hst hB haddr hsize hquiet hfresh
    have heq : ({ s with
        bufs := bufs'
        addrMemBufAllocators := s.addrMemBufAllocators.insert rest.addr (s.bufs.next, k) } :
          Pool δ).arena = { s.arena with
        bufs := dataOf bufs'
        live := s.arena.live.insert rest.addr (s.bufs.next, k) } := rfl
    rw [heq, hdata]
    exact hc
  have hsets : ∀ st ps, st.isFree → SetOk (dataOf s.bufs) al.memBlocks st ps none →
      SetOk (dataOf bufs') al.memBlocks st ps none := by
    intro st ps hfree hs
    rw [hdata]
    refine SetOk.cutUsed hs (dataOf_get hb) (fun heq => hstb ?_) (fun heq => hst ?_)
    · have heq : b.status = st := heq
      rw [heq]
      exact hfree
    · have heq : rest.status = st := heq
      rw [heq]
      exact hfree
  obtain ⟨hout, L, R, hL, hinv'⟩ := hinv.cut none hspl hb hBal hB hn haddr hsize
    hquiet (Eq.refl al.memBlocks) (hsets _ _ (.inl rfl) hinv.free) (hsets _ _ (.inr rfl) hinv.eager)
  refine ⟨⟨h.base.cut hcut, ⟨Function.update lay b.memBlock (L ++ p :: s.bufs.next :: R),
    fun k' al' hal' => ?_⟩, h.flag⟩, rfl, hcut⟩
  by_cases hk : k' = k
  · subst hk
    have hal' : s.allocator? k' = some al' := hal'
    rw [hal] at hal'
    cases hal'
    exact hinv'
  · refine (hlay k' al' hal').frame hout (fun _ _ => rfl) (fun C hC => ?_) fun C hC hC' => hk ?_
    · have hne : C ≠ b.memBlock := fun heq => hC (by rw [heq]; exact hBal)
      exact Function.update_of_ne hne _ _
    · exact h.base.excl k' k C ((owns_iff hal' C).mpr hC) ((owns_iff hal C).mpr hC')

/-- The size may also be written after the rest has been linked. -/
theorem insertBehind_shrink (hb : s.bufs.get p = some b) (hnp : b.next ≠ some p) :
    ({ (insertBehind p rest k s).2 with
      bufs := (insertBehind p rest k s).2.bufs.modify p fun x => { x with size := n } } :
        Pool δ) = cutAt p n rest k s := by
  have hpn : p ≠ s.bufs.next := Heap.ne_next hb
  have hbufs : (linkMemBuf (s.bufs.new rest) s.bufs.next (some p) b.next).modify p
        (fun x => { x with size := n }) =
      linkMemBuf ((s.bufs.modify p fun x => { x with size := n }).new rest) s.bufs.next (some p)
        b.next := by
    refine Heap.ext (fun r => ?_) (by simp)
    unfold linkMemBuf
    cases hbn : b.next with
    | none =>
        simp only [Heap.get_modify, Heap.get_new, Heap.next_modify]
        by_cases hrp : r = p
        · subst hrp
          simp [hpn, hb]
        · simp [hrp, hpn.symm]
    | some nx =>
        have hnp : nx ≠ p := fun heq => hnp (by rw [hbn, heq])
        simp only [Heap.get_modify, Heap.get_new, Heap.next_modify]
        by_cases hrp : r = p
        · subst hrp
          simp [hpn, hb, hnp.symm]
        · simp [hrp, hpn.symm, hnp]
  unfold cutAt insertBehind emplaceAddr
  simp only [Heap.get_new, Heap.next_modify, hpn, if_false, hb, Heap.get_modify_self,
    Option.map_some, Option.getD_some]
  split <;> simp [hbufs]

end Pool

end Ccbase.Memory
