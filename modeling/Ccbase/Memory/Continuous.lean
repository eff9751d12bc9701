import Ccbase.Memory.KeptRanges

/-!
# `AllocContinuousTensorMem`

The call takes one buffer for all sizes and cuts it into pieces, the last of which gets the last
size. Where the buffer is larger than the sizes together, the bytes that are left over belong to no
buffer any more: they have been counted as used and are not counted back.
-/

namespace Ccbase.Memory

open Ccbase.Lib Chain Relation

variable {δ : Type} {dev : Device δ}

/-- The pieces of the given sizes from `a` on. -/
def piecesFrom (a : Nat) : List Nat → List (Nat × Nat)
  | [] => []
  | n :: ns => (a, n) :: piecesFrom (a + n) ns

theorem piecesFrom_bounds {a x n : Nat} {ns : List Nat} (h : (x, n) ∈ piecesFrom a ns) :
    a ≤ x ∧ x + n ≤ a + ns.sum := by
  induction ns generalizing a with
  | nil => cases h
  | cons m ns ih =>
      rw [List.sum_cons]
      rcases List.mem_cons.mp h with heq | h
      · cases heq
        omega
      · have := ih h
        omega

theorem piecesFrom_append (a : Nat) (ns ms : List Nat) :
    piecesFrom a (ns ++ ms) = piecesFrom a ns ++ piecesFrom (a + ns.sum) ms := by
  induction ns generalizing a with
  | nil => rfl
  | cons n ns ih =>
      rw [List.cons_append, piecesFrom, piecesFrom, ih, List.sum_cons, Nat.add_assoc,
        List.cons_append]

/-- A piece that is not empty starts at an address of its own. -/
theorem piecesFrom_unique {a x n n' : Nat} {ns : List Nat} (hpos : ∀ n ∈ ns, 0 < n)
    (h : (x, n) ∈ piecesFrom a ns) (h' : (x, n') ∈ piecesFrom a ns) : n = n' := by
  induction ns generalizing a with
  | nil => cases h
  | cons m ns ih =>
      have hm := hpos m (List.mem_cons_self ..)
      rcases List.mem_cons.mp h with heq | h
      · cases heq
        rcases List.mem_cons.mp h' with heq | h'
        · cases heq
          rfl
        · have := (piecesFrom_bounds h').1
          omega
      · rcases List.mem_cons.mp h' with heq | h'
        · cases heq
          have := (piecesFrom_bounds h).1
          omega
        · exact ih (fun n hn => hpos n (List.mem_cons_of_mem _ hn)) h h'

namespace Pool

variable {law : DeviceLaw dev} {s s' : Pool δ} {k : AllocatorKey} {p q n m : Nat} {b y : MemBuf}

/-- The buffer `p` with another size. -/
def resize (p n : Nat) (s : Pool δ) : Pool δ :=
  { s with bufs := s.bufs.modify p fun x => { x with size := n } }

theorem Placed.sizeAt_resize (h : Placed law s) (hb : s.bufs.get p = some b)
    (hl : s.addrMemBufAllocators.lookup b.addr = some (p, k)) (n z : Nat) :
    (resize p n s).arena.sizeAt z = if z = b.addr then some n else s.arena.sizeAt z := by
  have hbufs : (resize p n s).arena.bufs = s.arena.bufs.modify p fun d => { d with size := n } :=
    dataOf_modify (fun _ => rfl) _ _
  have hp : s.arena.bufs.get p = some b.data := dataOf_get hb
  have hlive : (resize p n s).arena.live = s.arena.live := rfl
  unfold Arena.sizeAt
  rw [hbufs, hlive]
  split
  · rename_i hz
    rw [hz, show s.arena.live.lookup b.addr = some (p, k) from hl, Option.bind_some]
    dsimp only
    rw [Heap.get_modify_self, hp]
    rfl
  · rename_i hz
    cases hv : s.arena.live.lookup z with
    | none => rfl
    | some v =>
        obtain ⟨r, k'⟩ := v
        obtain ⟨e, he, hea, -, -⟩ := h.inv.base.live z r k' hv
        have hrp : r ≠ p := fun heq => by
          rw [heq, hp] at he
          cases he
          exact hz hea.symm
        rw [Option.bind_some, Option.bind_some]
        dsimp only
        rw [Heap.get_modify_ne _ _ hrp]

/-- What the loop comes to: cuts, and then the last piece gets its size. -/
structure SplitInto (law : DeviceLaw dev) (a n₀ slack : Nat) (ns : List Nat) (k : AllocatorKey)
    (s t : Pool δ) (q : Nat) (y : MemBuf) : Prop extends Cuts law s t where
  get : t.bufs.get q = some y
  lookup_last : t.addrMemBufAllocators.lookup y.addr = some (q, k)
  last : ∃ ms n, ns = ms ++ [n] ∧ y.addr = a + n₀ + ms.sum ∧ y.size = n + slack
  used : y.status = .used
  pieces : ∀ x n, (x, n) ∈ piecesFrom (a + n₀) ns → x ≠ y.addr → t.arena.sizeAt x = some n
  first : t.arena.sizeAt a = some n₀
  lookup : ∀ z, z ∉ (piecesFrom (a + n₀) ns).map Prod.fst →
    t.addrMemBufAllocators.lookup z = s.addrMemBufAllocators.lookup z
  sizeAt : ∀ z, z ∉ (piecesFrom (a + n₀) ns).map Prod.fst → z ≠ a →
    t.arena.sizeAt z = s.arena.sizeAt z

theorem splitContinuous_spec (streamId : Nat) {slack : Nat} {b₀ : MemBuf} {ns : List Nat} :
    ∀ {s : Pool δ} {p n₀ : Nat} {b : MemBuf} (addrs : List Nat), Placed law s → ns ≠ [] →
      s.bufs.get p = some b → s.addrMemBufAllocators.lookup b.addr = some (p, k) →
      b₀.memBlock = b.memBlock → 0 < n₀ → (∀ n ∈ ns, 0 < n) → b.size = n₀ + ns.sum + slack →
      ns.sum < sizeBound →
      ∃ t q y, SplitInto law b.addr n₀ slack ns k s t q y ∧
        splitContinuous streamId b₀ k ns p (b.addr + n₀) ns.sum addrs (resize p n₀ s) =
          (addrs ++ (piecesFrom (b.addr + n₀) ns).map Prod.fst, resize q (y.size - slack) t) := by
  induction ns with
  | nil => exact fun _ _ hne => absurd rfl hne
  | cons n ns ih =>
      intro s p n₀ b addrs h _ hb hl hblock h0 hpos hsize hsum
      have hn := hpos n (List.mem_cons_self ..)
      rw [List.sum_cons] at hsize hsum
      let rest : MemBuf := { size := n + ns.sum + slack, addr := b.addr + n₀, streamId,
                             memBlock := b₀.memBlock, status := .used }
      have hr : IsRest b n₀ rest :=
        ⟨by show n + ns.sum + slack = b.size - n₀; omega, rfl, hblock, Arena.not_isFree_used, rfl,
          rfl⟩
      have hlt : n₀ < b.size := by omega
      have hin := h.cutIn hl hb h0 hlt hr
      obtain ⟨b₁, hb₁, hdata⟩ := hin.right
      have haddr₁ : b₁.addr = b.addr + n₀ := congrArg BufData.addr hdata
      have hsize₁ : b₁.size = n + ns.sum + slack := congrArg BufData.size hdata
      have hblock₁ : b₁.memBlock = b₀.memBlock := congrArg BufData.memBlock hdata
      have hst₁ : b₁.status = .used := congrArg BufData.status hdata
      obtain ⟨al, b', hal, hb', -, -, hBal⟩ := h.inv.lookup hl
      rw [hb] at hb'
      cases hb'
      obtain ⟨lay, hlay⟩ := h.inv.alloc
      obtain ⟨-, hnq⟩ := MemBufAllocator.next_ne_of_inv (c := s.ctx al) (hlay k al hal) hb hBal
      have hfresh : s.addrMemBufAllocators.lookup rest.addr = none :=
        h.fresh_inside hb (by show b.addr < b.addr + n₀; omega) (by show b.addr + n₀ < _; omega)
      -- the new buffer is the one behind a cut, but for its size
      have hstep : (insertBehind p { rest with size := n } k (resize p n₀ s)).2 =
          resize s.bufs.next n (cutAt p n₀ rest k s) := (cutAt_resize hb hnq hfresh).symm
      have hl₁ : (cutAt p n₀ rest k s).addrMemBufAllocators.lookup b₁.addr =
          some (s.bufs.next, k) := by
        rw [hin.lookup, if_pos haddr₁]
      cases ns with
      | nil =>
          refine ⟨cutAt p n₀ rest k s, s.bufs.next, b₁, ⟨hin.toCuts, hb₁, hl₁, ?_, hst₁, ?_, ?_,
            ?_, ?_⟩, ?_⟩
          · exact ⟨[], n, rfl, by rw [haddr₁]; rfl, by rw [hsize₁]; simp⟩
          · intro x n' hx hxy
            cases List.mem_singleton.mp hx
            exact absurd haddr₁.symm hxy
          · rw [hin.sizeAt, if_neg (by omega), if_pos rfl]
          · intro z hz
            rw [hin.lookup, if_neg fun heq => hz (by rw [heq]; exact List.mem_cons_self ..)]
          · intro z hz hza
            rw [hin.sizeAt, if_neg fun heq => hz (by rw [heq]; exact List.mem_cons_self ..),
              if_neg hza]
          · have hlast : b₁.size - slack = n := by
              rw [hsize₁]
              simp
            rw [hlast, ← hstep]
            show splitContinuous streamId b₀ k [n] p (b.addr + n₀) ([n].sum) addrs _ = _
            unfold splitContinuous
            simp only [List.isEmpty_nil, if_true, List.sum_cons, List.sum_nil, Nat.add_zero, ne_eq,
              not_true_eq_false, if_false]
            rfl
      | cons n' ns =>
          have hpos' : ∀ m ∈ n' :: ns, 0 < m := fun m hm => hpos m (List.mem_cons_of_mem _ hm)
          have hstarts : ∀ z, z ∈ (piecesFrom (b.addr + n₀ + n) (n' :: ns)).map Prod.fst →
              b.addr + n₀ + n ≤ z := by
            intro z hz
            obtain ⟨⟨x, m⟩, hx, rfl⟩ := List.mem_map.mp hz
            exact (piecesFrom_bounds hx).1
          obtain ⟨t, q, y, hsplit, heq⟩ := ih (s := cutAt p n₀ rest k s) (p := s.bufs.next)
            (addrs ++ [b.addr + n₀]) hin.placed (by simp) hb₁ hl₁ hblock₁.symm hn hpos'
            (by omega) (by omega)
          rw [haddr₁] at hsplit heq
          refine ⟨t, q, y, ⟨hin.toCuts.trans hsplit.toCuts, hsplit.get, hsplit.lookup_last, ?_,
            hsplit.used, ?_, ?_, ?_, ?_⟩, ?_⟩
          · obtain ⟨ms, l, hms, ha, hy⟩ := hsplit.last
            refine ⟨n :: ms, l, by rw [hms]; rfl, ?_, hy⟩
            rw [ha, List.sum_cons]
            omega
          · intro x m hx hxy
            rcases List.mem_cons.mp hx with heq | hx
            · cases heq
              exact hsplit.first
            · exact hsplit.pieces x m hx hxy
          · rw [hsplit.sizeAt b.addr (fun hz => by have := hstarts _ hz; omega) (by omega),
              hin.sizeAt, if_neg (by omega), if_pos rfl]
          · intro z hz
            obtain ⟨hz₁, hz₂⟩ := not_or.mp (fun hor => hz (List.mem_cons.mpr hor))
            rw [hsplit.lookup z hz₂, hin.lookup, if_neg hz₁]
          · intro z hz hza
            obtain ⟨hz₁, hz₂⟩ := not_or.mp (fun hor => hz (List.mem_cons.mpr hor))
            rw [hsplit.sizeAt z hz₂ hz₁, hin.sizeAt, if_neg hz₁, if_neg hza]
          · rw [← hstep] at heq
            rw [piecesFrom, List.map_cons, List.append_cons, ← heq]
            show splitContinuous streamId b₀ k (n :: n' :: ns) p (b.addr + n₀)
              ((n :: n' :: ns).sum) addrs _ = _
            unfold splitContinuous
            have hrest : subSize (n :: n' :: ns).sum n = (n' :: ns).sum := by
              rw [List.sum_cons, subSize_eq (by omega) (by omega)]
              omega
            simp only [List.isEmpty_cons, Bool.false_eq_true, if_false, hrest]
            rfl

end Pool

/-! ## Free without the tiling -/

namespace MemBufAllocator

variable {ε : Type} {c : Ctx ε} {p r : Nat} {x : MemBuf}

/-- What a method leaves of a buffer in use. -/
def SameUse (x : MemBuf) (bufs : Heap MemBuf) (r : Nat) : Prop :=
  ∃ x', bufs.get r = some x' ∧ x'.size = x.size ∧ x'.status = x.status ∧
    x'.toEventBase = x.toEventBase

theorem SameUse.modify {bufs : Heap MemBuf} (h : SameUse x bufs r) (o : Option Nat)
    {f : MemBuf → MemBuf} (hsize : ∀ b, (f b).size = b.size) (hst : ∀ b, (f b).status = b.status)
    (hev : ∀ b, (f b).toEventBase = b.toEventBase) : SameUse x (bufs.modify? o f) r := by
  obtain ⟨x', hx', h1, h2, h3⟩ := h
  cases o with
  | none => exact ⟨x', hx', h1, h2, h3⟩
  | some q =>
      rw [Heap.modify?_some]
      by_cases hrq : r = q
      · subst hrq
        refine ⟨f x', ?_, (hsize x').trans h1, (hst x').trans h2, (hev x').trans h3⟩
        rw [Heap.get_modify_self, hx']
        rfl
      · exact ⟨x', by rw [Heap.get_modify_ne _ _ hrq]; exact hx', h1, h2, h3⟩

theorem SameUse.other {bufs : Heap MemBuf} (h : SameUse x bufs r) (hr : r ≠ p)
    (f : MemBuf → MemBuf) : SameUse x (bufs.modify p f) r := by
  obtain ⟨x', hx', h1, h2, h3⟩ := h
  exact ⟨x', by rw [Heap.get_modify_ne _ _ hr]; exact hx', h1, h2, h3⟩

theorem SameUse.delete {bufs : Heap MemBuf} {q : Nat} (h : SameUse x bufs r) (hr : r ≠ q) :
    SameUse x (bufs.delete q) r := by
  obtain ⟨x', hx', h1, h2, h3⟩ := h
  exact ⟨x', by rw [Heap.get_delete_ne _ hr]; exact hx', h1, h2, h3⟩

/-- A neighbour that is merged is idle, so it is not the buffer in use. -/
theorem SameUse.ne_idle {bufs : Heap MemBuf} {q : Nat} {y : MemBuf} (h : SameUse x bufs r)
    (hst : x.status ≠ .idle) (hq : bufs.get q = some y) (hy : y.status = .idle) : r ≠ q := by
  rintro rfl
  obtain ⟨x', hx', -, h2, -⟩ := h
  rw [hq] at hx'
  cases hx'
  exact hst (h2.symm.trans hy)

theorem mergePrev_sameUse (h : SameUse x c.bufs r) (hst : x.status ≠ .idle) (hr : r ≠ p) :
    SameUse x (mergePrev p .idle c).bufs r := by
  unfold mergePrev
  split
  · exact h
  · split
    · exact h
    · split
      · exact h
      · split
        · rename_i q hq y hy hyst
          refine SameUse.delete ?_ (h.ne_idle hst hy hyst)
          exact ((h.other hr _).modify y.prev (f := fun b => { b with next := some p })
            (fun _ => rfl) (fun _ => rfl) fun _ => rfl).other hr _
        · exact h

theorem mergeNext_sameUse (h : SameUse x c.bufs r) (hst : x.status ≠ .idle) (hr : r ≠ p) :
    SameUse x (mergeNext p .idle c).bufs r := by
  unfold mergeNext
  split
  · exact h
  · split
    · exact h
    · split
      · exact h
      · split
        · rename_i q hq y hy hyst
          refine SameUse.delete ?_ (h.ne_idle hst hy hyst)
          exact ((h.other hr _).modify y.next (f := fun b => { b with prev := some p })
            (fun _ => rfl) (fun _ => rfl) fun _ => rfl).other hr _
        · exact h

/-- Whatever the links are, `Free` does not touch other buffers in use. -/
theorem coalesce_sameUse (hx : c.bufs.get r = some x) (hst : x.status ≠ .idle) (hr : r ≠ p) :
    SameUse x (coalesce p .idle c).bufs r := by
  have h : SameUse x c.bufs r := ⟨x, hx, rfl, rfl, rfl⟩
  exact mergeNext_sameUse (mergePrev_sameUse (c := { c with
    bufs := c.bufs.modify p fun b => { b with status := .idle } }) (h.other hr _) hst hr) hst hr

end MemBufAllocator

namespace Pool

variable {law : DeviceLaw dev} {s s' : Pool δ} {k : AllocatorKey} {p q n m : Nat} {b y : MemBuf}

/-- The address map leads to buffers in use, and to each from one address. That is all
`FreeTensorMem` needs to count right. -/
structure Loose (s : Pool δ) : Prop where
  live : ∀ a p k, s.addrMemBufAllocators.lookup a = some (p, k) →
    ∃ al b, s.allocator? k = some al ∧ s.bufs.get p = some b ∧ b.status ≠ .idle ∧
      b.isEventNotUsed = true
  inj : ∀ a a' p k k', s.addrMemBufAllocators.lookup a = some (p, k) →
    s.addrMemBufAllocators.lookup a' = some (p, k') → a = a'

theorem Inv.loose (h : Inv law 0 s) (hh : s.arena.Hushed) : Loose s where
  live a p k hl := by
    obtain ⟨al, b, hal, hb, -, hst, -⟩ := h.lookup hl
    exact ⟨al, b, hal, hb, fun heq => hst (.inl heq), hh p b.data (dataOf_get hb)⟩
  inj a a' p k k' hl hl' := by
    obtain ⟨d, hd, ha, -, -⟩ := h.base.live a p k hl
    obtain ⟨d', hd', ha', -, -⟩ := h.base.live a' p k' hl'
    rw [hd] at hd'
    cases hd'
    exact ha.symm.trans ha'

theorem Loose.resize (h : Loose s) (p n : Nat) : Loose (resize p n s) where
  live a r k hl := by
    obtain ⟨al, b, hal, hb, hst, hev⟩ := h.live a r k hl
    by_cases hrp : r = p
    · subst hrp
      refine ⟨al, { b with size := n }, hal, ?_, hst, hev⟩
      show (s.bufs.modify r _).get r = _
      rw [Heap.get_modify_self, hb]
      rfl
    · refine ⟨al, b, hal, ?_, hst, hev⟩
      show (s.bufs.modify p _).get r = _
      rw [Heap.get_modify_ne _ _ hrp]
      exact hb
  inj := h.inj

theorem Loose.free {a : Nat} (h : Loose s) (ha : s.arena.sizeAt a = some n) :
    Loose (freeTensorMem a s) ∧
      (∀ z, (freeTensorMem a s).arena.sizeAt z = if z = a then none else s.arena.sizeAt z) ∧
      (freeTensorMem a s).memStat.usedSize = subSize s.memStat.usedSize n := by
  obtain ⟨⟨p, k⟩, hl, hp⟩ := Option.bind_eq_some_iff.mp ha
  have hl : s.addrMemBufAllocators.lookup a = some (p, k) := hl
  obtain ⟨al, b, hal, hb, hst, hev⟩ := h.live a p k hl
  have hn : b.size = n := by
    obtain ⟨d, hd, hdn⟩ := Option.map_eq_some_iff.mp hp
    have hb' : s.arena.bufs.get p = some b.data := dataOf_get hb
    rw [hb'] at hd
    cases hd
    exact hdn
  have hb' : (s.ctx al).bufs.get p = some b := hb
  have heq : freeTensorMem a s = released a p k al b s := by
    unfold freeTensorMem doFreeTensorMem released
    simp only [hl, hal, hb, MemBufAllocator.free, hb', hev, Bool.not_true, Bool.false_eq_true,
      if_false, if_true]
  have hlook : (released a p k al b s).addrMemBufAllocators = s.addrMemBufAllocators.erase a := by
    unfold released
    cases k <;> rfl
  -- merging leaves every other buffer in use as it is
  have hother : ∀ z q k', z ≠ a → s.addrMemBufAllocators.lookup z = some (q, k') →
      ∃ x, s.bufs.get q = some x ∧ x.status ≠ .idle ∧ x.isEventNotUsed = true ∧
        MemBufAllocator.SameUse x (released a p k al b s).bufs q := by
    intro z q k' hz hlz
    obtain ⟨-, x, -, hx, hxst, hxev⟩ := h.live z q k' hlz
    refine ⟨x, hx, hxst, hxev, ?_⟩
    have hqp : q ≠ p := fun hqp => hz (h.inj z a q k' k hlz (by rw [hqp]; exact hl))
    exact MemBufAllocator.coalesce_sameUse (c := s.ctx al) hx hxst hqp
  rw [heq]
  refine ⟨⟨fun z q k' hlz => ?_, fun z z' q k' k'' hlz hlz' => ?_⟩, fun z => ?_, ?_⟩
  · rw [hlook] at hlz
    have hz : z ≠ a := fun hz => by
      rw [hz, AList.lookup_erase] at hlz
      cases hlz
    rw [AList.lookup_erase_ne hz] at hlz
    obtain ⟨x, -, hxst, hxev, x', hx', -, h2, h3⟩ := hother z q k' hz hlz
    obtain ⟨al', -, hal', -⟩ := h.live z q k' hlz
    have halloc : ∃ al'', (released a p k al b s).allocator? k' = some al'' := by
      have hput := allocator?_putCtx hal (MemBufAllocator.coalesce p .idle (s.ctx al)) k'
      by_cases hk : k' = k
      · rw [if_pos hk] at hput
        exact ⟨_, hput⟩
      · rw [if_neg hk] at hput
        exact ⟨al', hput.trans hal'⟩
    obtain ⟨al'', hal''⟩ := halloc
    exact ⟨al'', x', hal'', hx', by rw [h2]; exact hxst, by rw [h3]; exact hxev⟩
  · rw [hlook] at hlz hlz'
    have hne : ∀ {w v}, (s.addrMemBufAllocators.erase a).lookup w = some v →
        s.addrMemBufAllocators.lookup w = some v := by
      intro w v hw
      have hwa : w ≠ a := fun hwa => by
        rw [hwa, AList.lookup_erase] at hw
        cases hw
      rwa [AList.lookup_erase_ne hwa] at hw
    exact h.inj z z' q k' k'' (hne hlz) (hne hlz')
  · have hlive : (released a p k al b s).arena.live = s.addrMemBufAllocators.erase a := hlook
    unfold Arena.sizeAt
    rw [hlive]
    by_cases hz : z = a
    · rw [if_pos hz, hz, AList.lookup_erase]
      rfl
    · rw [if_neg hz, AList.lookup_erase_ne hz]
      show _ = (s.addrMemBufAllocators.lookup z).bind _
      cases hlz : s.addrMemBufAllocators.lookup z with
      | none => rfl
      | some v =>
          obtain ⟨q, k'⟩ := v
          obtain ⟨x, hx, -, -, x', hx', h1, -⟩ := hother z q k' hz hlz
          rw [Option.bind_some, Option.bind_some]
          show ((dataOf (released a p k al b s).bufs).get q).map BufData.size =
            ((dataOf s.bufs).get q).map BufData.size
          rw [dataOf_get hx, dataOf_get hx']
          exact congrArg some h1
  · rw [← hn]
    -- merging does not touch the counters
    have hstat : (MemBufAllocator.coalesce p .idle (s.ctx al)).env.memStat = s.memStat := by
      have hmerge : ∀ c : Ctx (Env δ), (MemBufAllocator.mergePrev p .idle c).env = c.env ∧
          (MemBufAllocator.mergeNext p .idle c).env = c.env := by
        intro c
        unfold MemBufAllocator.mergePrev MemBufAllocator.mergeNext
        constructor
        · split
          · rfl
          · split
            · rfl
            · split
              · rfl
              · split <;> rfl
        · split
          · rfl
          · split
            · rfl
            · split
              · rfl
              · split <;> rfl
      show (MemBufAllocator.mergeNext p .idle (MemBufAllocator.mergePrev p .idle
        { s.ctx al with bufs := s.bufs.modify p fun b =>
          { b with status := .idle } })).env.memStat = _
      rw [(hmerge _).2, (hmerge _).1]
      rfl
    show subSize (MemBufAllocator.coalesce p .idle (s.ctx al)).env.memStat.usedSize b.size = _
    rw [hstat]

/-- Buffers of the map are freed in any order. -/
theorem Loose.freeAll {pieces : List (Nat × Nat)} :
    ∀ {s : Pool δ} {order : List Nat}, Loose s → order.Perm (pieces.map Prod.fst) →
      (pieces.map Prod.fst).Nodup → (∀ x n, (x, n) ∈ pieces → s.arena.sizeAt x = some n) →
      (pieces.map Prod.snd).sum ≤ s.memStat.usedSize → s.memStat.usedSize < sizeBound →
      (∀ z, (order.foldl (fun s a => freeTensorMem a s) s).arena.sizeAt z =
        if z ∈ order then none else s.arena.sizeAt z) ∧
      (order.foldl (fun s a => freeTensorMem a s) s).memStat.usedSize =
        s.memStat.usedSize - (pieces.map Prod.snd).sum := by
  intro s order
  induction order generalizing s pieces with
  | nil =>
      intro _ hperm _ _ _ _
      have hnil : pieces = [] := List.map_eq_nil_iff.mp (List.nil_perm.mp hperm)
      subst hnil
      exact ⟨fun z => (if_neg (List.not_mem_nil)).symm, rfl⟩
  | cons a order ih =>
      intro h hperm hnd hsize hle hlt
      obtain ⟨⟨x, n⟩, hx, rfl⟩ := List.mem_map.mp (hperm.subset (List.mem_cons_self ..))
      dsimp only at hperm ⊢
      obtain ⟨L, R, hLR⟩ := List.append_of_mem hx
      subst hLR
      rw [List.map_append, List.map_cons] at hperm hnd hle
      dsimp only at hperm hnd hle
      have hsum : ((L ++ R).map Prod.snd).sum + n =
          (L.map Prod.snd ++ n :: R.map Prod.snd).sum := by
        rw [List.map_append, List.sum_append, List.sum_append, List.sum_cons]
        omega
      have hperm' : order.Perm ((L ++ R).map Prod.fst) := by
        rw [List.map_append]
        exact List.Perm.cons_inv (hperm.trans List.perm_middle)
      have hnd' := List.nodup_middle.mp hnd
      obtain ⟨hxnot, hnd'⟩ := List.nodup_cons.mp hnd'
      obtain ⟨h₁, hs₁, hu₁⟩ := h.free (hsize x n hx)
      have hused : (freeTensorMem x s).memStat.usedSize = s.memStat.usedSize - n := by
        rw [hu₁]
        exact subSize_eq hlt (by omega)
      have hsize₁ : ∀ z l, (z, l) ∈ L ++ R → (freeTensorMem x s).arena.sizeAt z = some l := by
        intro z l hz
        have hzx : z ≠ x := fun heq => hxnot (by
          rw [← heq, ← List.map_append]
          exact List.mem_map.mpr ⟨(z, l), hz, rfl⟩)
        rw [hs₁, if_neg hzx]
        refine hsize z l ?_
        rcases List.mem_append.mp hz with hz | hz
        · exact List.mem_append_left _ hz
        · exact List.mem_append_right _ (List.mem_cons_of_mem _ hz)
      obtain ⟨hfin, hufin⟩ := ih h₁ hperm' (by rw [List.map_append]; exact hnd') hsize₁
        (by rw [hused]; omega) (by rw [hused]; omega)
      rw [List.foldl_cons]
      refine ⟨fun z => ?_, ?_⟩
      · rw [hfin, hs₁]
        by_cases hz : z ∈ order
        · rw [if_pos hz, if_pos (List.mem_cons_of_mem _ hz)]
        · rw [if_neg hz]
          by_cases hzx : z = x
          · rw [if_pos hzx, if_pos (by rw [hzx]; exact List.mem_cons_self ..)]
          · rw [if_neg hzx, if_neg fun hor => (List.mem_cons.mp hor).elim hzx hz]
      · have hall : ((L ++ (x, n) :: R).map Prod.snd).sum = ((L ++ R).map Prod.snd).sum + n := by
          rw [hsum, List.map_append, List.map_cons]
        rw [hufin, hused, hall]
        omega

/-! ## The whole buffer -/

/-- An allocation without events that did not fail. -/
structure Handed (s : Pool δ) (size addr p : Nat) (k : AllocatorKey) (b : MemBuf) (s' : Pool δ) :
    Prop where
  get : s'.bufs.get p = some b
  start : b.addr = addr
  aligned : alignMemorySize size ≤ b.size
  lookup : ∀ z, s'.addrMemBufAllocators.lookup z =
    if z = addr then some (p, k) else s.addrMemBufAllocators.lookup z
  fresh : s.addrMemBufAllocators.lookup addr = none
  sizeAt : ∀ z, z ≠ addr → s'.arena.sizeAt z = s.arena.sizeAt z
  usedSize : s'.memStat.usedSize = s.memStat.usedSize + b.size

theorem PartInv.handed {size streamId addr : Nat} (hdis : law.Disjoint) (hbd : dev.Bounded)
    (h : PartInv law m s) (hsize : size + kDynamicMemAlignSize ≤ sizeBound)
    (hres : allocTensorMem dev size false streamId s = some (addr, s')) (h0 : addr ≠ 0) :
    ∃ p k b, Handed s size addr p k b s' := by
  have hd := allocTensorMem_spec h.used.count.inv (.inr h.used.count.noEvents) hres
  have hused := h.used.alloc hdis hbd hsize hres
  rcases hd.step.noEvents h.used.count.noEvents with ⟨rfl, -⟩ | ⟨p, k, A, d, hpath, hh, hdp, hda⟩
  · exact absurd rfl h0
  · obtain ⟨d₀, hf⟩ := hh.frame
    have hcalm := Arena.Calm.of_path hpath
    have hbase := hd.vmm ▸ h.used.count.inv.base.path hpath
    have halign := (alignMemorySize_ge hsize).2
    have hfresh := hand_fresh hused.count.inv hused.count.spread hbase
      (fun q e hq hst => (h.used.mapped.calm hcalm).pos_hand hf halign hq hst) hf
    have hdd : d = { d₀ with status := .used } := by
      rcases hf.get_back hdp with ⟨-, hdd⟩ | ⟨hne, -⟩
      · exact hdd
      · exact absurd rfl hne
    have haddr : addr = d₀.addr := by rw [hda, hdd]
    have hlive : s'.arena.live = A.live.insert addr (p, k) := by
      rw [hf.live, hfresh, haddr]
      rfl
    rw [hcalm.live, ← haddr] at hfresh
    rw [hcalm.live] at hlive
    obtain ⟨b, hb, hbd⟩ := dataOf_get_some hdp
    have hbsize : b.size = d₀.size := by
      have := congrArg BufData.size hbd
      rwa [hdd] at this
    have hlook : ∀ z, s'.arena.live.lookup z =
        if z = addr then some (p, k) else s.arena.live.lookup z := by
      intro z
      rw [hlive]
      split
      · rename_i hz
        rw [hz, AList.lookup_insert]
      · rename_i hz
        rw [AList.lookup_insert_ne hz]
    refine ⟨p, k, b, hb, ?_, by rw [hbsize]; exact hf.size, hlook, hfresh, fun z hz => ?_, ?_⟩
    · rw [hda, ← hbd]
      rfl
    · unfold Arena.sizeAt
      rw [hlook, if_neg hz]
      cases hl : s.arena.live.lookup z with
      | none => rfl
      | some v =>
          obtain ⟨q, k'⟩ := v
          obtain ⟨e, he, -, hst, -⟩ := h.used.count.inv.base.live z q k' hl
          have he' := (hf.get ((hcalm.live_iff q e hst).mpr he) hst).2
          rw [Option.bind_some, Option.bind_some]
          dsimp only
          rw [he, he']
    · have hsum : s'.arena.bufs.sum (BufData.sizeWhere (inUseFrom 0)) =
          A.bufs.sum (BufData.sizeWhere (inUseFrom 0)) + d₀.size := by
        have hmod := sum_sizeWhere_status (P := inUseFrom 0) hf.free.1 .used
        rw [← hf.bufs, inUseFrom_of_not_free Arena.not_isFree_used (Nat.zero_le _)] at hmod
        unfold BufData.sizeWhere at hmod
        rw [inUseFrom_of_free hf.free.2] at hmod
        exact hmod
      have hA : s.memStat.usedSize = A.bufs.sum (BufData.sizeWhere (inUseFrom 0)) % sizeBound :=
        hcalm.usedSize.symm.trans (h.used.count.counted.path h.used.count.inv.base hpath).used
      have hlt := hused.usedSize_lt
      rw [hused.count.counters.1, hsum] at hlt
      rw [hused.count.counters.1, hsum, hbsize, hA, Nat.mod_eq_of_lt (by omega)]

/-! ## The chain behind the last piece -/

/-- A buffer of a tiled block ends where its right neighbour starts. -/
theorem chained_end {c : Ctx (Env δ)} {B : Nat} {ps : List Nat} (h : Chained c B ps)
    (hb : c.bufs.get q = some y) (hB : y.memBlock = B) :
    (∃ r x, y.next = some r ∧ r ≠ q ∧ c.bufs.get r = some x ∧ x.addr = y.addr + y.size) ∨
      (y.next = none ∧ ∃ blk, c.blocks.get B = some blk ∧
        y.addr + y.size = blk.addr + blk.size) := by
  obtain ⟨blk, hblk, hseg⟩ := h.tiles
  obtain ⟨L, R, rfl⟩ := List.append_of_mem ((h.mem_iff q).mpr ⟨y, hb, hB⟩)
  obtain ⟨y', hy', -, hnext, -, hR⟩ := hseg.split
  rw [hb] at hy'
  cases hy'
  cases R with
  | nil => exact .inr ⟨hnext, blk, hblk, hR⟩
  | cons r R =>
      obtain ⟨x, hx, -, -, hlo, -⟩ := hR
      refine .inl ⟨r, x, hnext, fun heq => ?_, hx, hlo⟩
      subst heq
      have hnd := (List.nodup_append.mp h.nodup).2.1
      exact (List.nodup_cons.mp hnd).1 (List.mem_cons_self ..)

/-- The last piece is cut short by `slack` bytes: the blocks stay tiled only if there are none. -/
theorem inOrder_resize_iff {slack : Nat} (h : Tight law s) (hb : s.bufs.get q = some y)
    (hl : s.addrMemBufAllocators.lookup y.addr = some (q, k)) (hle : slack ≤ y.size) :
    (∀ k al, (resize q (y.size - slack) s).allocator? k = some al →
      InOrder (resize q (y.size - slack) s) al) ↔ slack = 0 := by
  constructor
  · intro hin
    obtain ⟨al, b', hal, hb', -, -, hB⟩ := h.inv.lookup hl
    rw [hb] at hb'
    cases hb'
    obtain ⟨ps, hch, -⟩ := (h.inOrder hal).chains y.memBlock hB
    obtain ⟨ps', hch', -⟩ := (hin k al hal).chains y.memBlock hB
    have hy' : ((resize q (y.size - slack) s).ctx al).bufs.get q =
        some { y with size := y.size - slack } := by
      show (s.bufs.modify q _).get q = _
      rw [Heap.get_modify_self, hb]
      rfl
    have hend := chained_end hch hb rfl
    have hend' := chained_end hch' hy' rfl
    dsimp only at hend'
    rcases hend with ⟨r, x, hnext, hrq, hx, hxa⟩ | ⟨hnext, blk, hblk, hblke⟩
    · rcases hend' with ⟨r', x', hnext', -, hx', hxa'⟩ | ⟨hnext', -⟩
      · rw [hnext] at hnext'
        cases hnext'
        have hget : ((resize q (y.size - slack) s).ctx al).bufs.get r = s.bufs.get r :=
          Heap.get_modify_ne _ _ hrq
        rw [hget, show s.bufs.get r = some x from hx] at hx'
        cases hx'
        omega
      · rw [hnext] at hnext'
        cases hnext'
    · rcases hend' with ⟨r', x', hnext', -⟩ | ⟨-, blk', hblk', hblke'⟩
      · rw [hnext] at hnext'
        cases hnext'
      · rw [show ((resize q (y.size - slack) s).ctx al).blocks = (s.ctx al).blocks from rfl,
          hblk] at hblk'
        cases hblk'
        omega
  · rintro rfl
    have hsame : resize q (y.size - 0) s = s := by
      unfold resize
      have hbufs : (s.bufs.modify q fun x => { x with size := y.size - 0 }) = s.bufs := by
        refine Heap.ext (fun r => ?_) rfl
        by_cases hr : r = q
        · rw [hr, Heap.get_modify_self, hb]
          rfl
        · exact Heap.get_modify_ne _ _ hr
      rw [hbufs]
    rw [hsame]
    exact fun k al hal => h.inOrder hal

/-! ## The call -/

theorem Cuts.tight (hc : Cuts law s s') (h : Tight law s) : Tight law s' := by
  have hpath := hc.path
  clear hc
  induction hpath with
  | refl => exact h
  | tail _ hcut ih => exact hcut.tight ih

theorem Cuts.memStat (hc : Cuts law s s') : s'.memStat = s.memStat := by
  have hpath := hc.arena
  have henv : s'.arena.env = s.arena.env := by
    generalize s'.arena = A' at hpath
    induction hpath with
    | refl => rfl
    | tail _ hcut ih =>
        obtain ⟨_, _, _, -, -, hcut⟩ := hcut
        obtain ⟨_, _, hf⟩ := hcut.frame
        exact hf.env.trans ih
  exact congrArg Env.memStat henv

theorem foldl_addSize {sizes : List Nat} (h : a + sizes.sum < sizeBound) :
    sizes.foldl addSize a = a + sizes.sum := by
  induction sizes generalizing a with
  | nil => rfl
  | cons n ns ih =>
      rw [List.sum_cons] at h ⊢
      rw [List.foldl_cons, show addSize a n = a + n from Nat.mod_eq_of_lt (by omega),
        ih (by omega), Nat.add_assoc]

/-- What a call leads to that gets a buffer at `a` with `slack` bytes too many: pieces of exactly
the sizes, side by side. The bytes too many stay counted as used, whatever is freed, and they are a
hole in their block. -/
structure ContinuousSpec (sizes : List Nat) (a slack : Nat) (s s' : Pool δ) : Prop where
  sizeAt : ∀ x n, (x, n) ∈ piecesFrom a sizes → s'.arena.sizeAt x = some n
  fresh : ∀ x n, (x, n) ∈ piecesFrom a sizes → s.addrMemBufAllocators.lookup x = none
  others : ∀ z, z ∉ (piecesFrom a sizes).map Prod.fst → s'.arena.sizeAt z = s.arena.sizeAt z
  aligned : alignMemorySize sizes.sum ≤ sizes.sum + slack
  usedSize : s'.memStat.usedSize = s.memStat.usedSize + (sizes.sum + slack)
  freed : ∀ order : List Nat, order.Perm ((piecesFrom a sizes).map Prod.fst) →
    (∀ z, (order.foldl (fun s x => freeTensorMem x s) s').arena.sizeAt z = s.arena.sizeAt z) ∧
      (order.foldl (fun s x => freeTensorMem x s) s').memStat.usedSize =
        s.memStat.usedSize + slack
  inOrder : (∀ k al, s'.allocator? k = some al → InOrder s' al) ↔ slack = 0

theorem nodup_piecesFrom {a : Nat} {ns : List Nat} (hpos : ∀ n ∈ ns, 0 < n) :
    ((piecesFrom a ns).map Prod.fst).Nodup := by
  induction ns generalizing a with
  | nil => exact List.nodup_nil
  | cons n ns ih =>
      refine List.nodup_cons.mpr ⟨fun hin => ?_, ih fun m hm => hpos m (List.mem_cons_of_mem _ hm)⟩
      obtain ⟨⟨x, l⟩, hx, heq⟩ := List.mem_map.mp hin
      have hlow := (piecesFrom_bounds hx).1
      have hn := hpos n (List.mem_cons_self ..)
      dsimp only at heq
      omega

theorem map_snd_piecesFrom (a : Nat) (ns : List Nat) : (piecesFrom a ns).map Prod.snd = ns := by
  induction ns generalizing a with
  | nil => rfl
  | cons n ns ih => rw [piecesFrom, List.map_cons, ih]

section Pieces

variable {a n₀ slack : Nat} {ns : List Nat}

/-- The pieces behind the first one start behind its address. -/
theorem piecesFrom_inside {x l : Nat} (h0 : 0 < n₀) (hpos : ∀ n ∈ ns, 0 < n)
    (hx : (x, l) ∈ piecesFrom (a + n₀) ns) : a < x ∧ x < a + (n₀ + ns.sum) := by
  have hb := piecesFrom_bounds hx
  have hl : 0 < l := hpos l (by
    rw [← map_snd_piecesFrom (a + n₀) ns]
    exact List.mem_map.mpr ⟨(x, l), hx, rfl⟩)
  omega

/-- The last buffer without the slack is the last piece. -/
theorem SplitInto.last_piece (h : SplitInto law a n₀ slack ns k s s' q y) :
    (y.addr, y.size - slack) ∈ piecesFrom (a + n₀) ns := by
  obtain ⟨ms, n, rfl, haddr, hsize⟩ := h.last
  rw [piecesFrom_append, haddr, hsize, Nat.add_sub_cancel]
  exact List.mem_append_right _ (List.mem_cons_self ..)

/-- When the last buffer has its size, every piece has its own. -/
theorem SplitInto.sizeAt_pieces (h : SplitInto law a n₀ slack ns k s s' q y) (h0 : 0 < n₀)
    (hpos : ∀ n ∈ ns, 0 < n) {x l : Nat} (hx : (x, l) ∈ piecesFrom a (n₀ :: ns)) :
    (resize q (y.size - slack) s').arena.sizeAt x = some l := by
  rw [h.placed.sizeAt_resize h.get h.lookup_last]
  rcases List.mem_cons.mp hx with heq | hx
  · cases heq
    rw [if_neg (piecesFrom_inside h0 hpos h.last_piece).1.ne]
    exact h.first
  · by_cases hxy : x = y.addr
    · rw [if_pos hxy]
      rw [hxy] at hx
      rw [piecesFrom_unique hpos hx h.last_piece]
    · rw [if_neg hxy]
      exact h.pieces x l hx hxy

theorem SplitInto.sizeAt_others (h : SplitInto law a n₀ slack ns k s s' q y) {z : Nat}
    (hz : z ∉ (piecesFrom a (n₀ :: ns)).map Prod.fst) :
    z ≠ a ∧ (resize q (y.size - slack) s').arena.sizeAt z = s.arena.sizeAt z := by
  obtain ⟨hza, hz⟩ := not_or.mp fun hor => hz (List.mem_cons.mpr hor)
  have hzy : z ≠ y.addr := fun heq => hz (by
    rw [heq]
    exact List.mem_map.mpr ⟨_, h.last_piece, rfl⟩)
  refine ⟨hza, ?_⟩
  rw [h.placed.sizeAt_resize h.get h.lookup_last, if_neg hzy, h.sizeAt z hz hza]

/-- The buffer that was handed out has been cut into the pieces. -/
theorem Handed.continuousSpec {s₁ t : Pool δ} {p : Nat} (hh : Handed s (n₀ :: ns).sum a p k b s₁)
    (h₁ : PartInv law m s₁) (hsplit : SplitInto law a n₀ slack ns k s₁ t q y) (h0 : 0 < n₀)
    (hpos : ∀ n ∈ ns, 0 < n) (hslack : b.size = n₀ + ns.sum + slack) :
    ContinuousSpec (n₀ :: ns) a slack s (resize q (y.size - slack) t) := by
  have hpieces : ∀ x l, (x, l) ∈ piecesFrom a (n₀ :: ns) →
      (resize q (y.size - slack) t).arena.sizeAt x = some l :=
    fun x l hx => hsplit.sizeAt_pieces h0 hpos hx
  have hfresh : ∀ x l, (x, l) ∈ piecesFrom a (n₀ :: ns) →
      s.addrMemBufAllocators.lookup x = none := by
    intro x l hx
    rcases List.mem_cons.mp hx with heq | hx
    · cases heq
      exact hh.fresh
    · have hbounds := piecesFrom_inside h0 hpos hx
      have hnone := h₁.tight.toPlaced.fresh_inside hh.get (a := x) (by rw [hh.start]; omega)
        (by rw [hh.start]; omega)
      rwa [hh.lookup, if_neg (by omega)] at hnone
  have hothers : ∀ z, z ∉ (piecesFrom a (n₀ :: ns)).map Prod.fst →
      (resize q (y.size - slack) t).arena.sizeAt z = s.arena.sizeAt z := by
    intro z hz
    obtain ⟨hza, hsize⟩ := hsplit.sizeAt_others hz
    rw [hsize, hh.sizeAt z hza]
  have hused : (resize q (y.size - slack) t).memStat.usedSize =
      s.memStat.usedSize + ((n₀ :: ns).sum + slack) := by
    show t.memStat.usedSize = _
    rw [hsplit.memStat, hh.usedSize, hslack, List.sum_cons]
  refine ⟨hpieces, hfresh, hothers, ?_, hused, fun order hperm => ?_, ?_⟩
  · rw [List.sum_cons, ← hslack, ← List.sum_cons]
    exact hh.aligned
  · -- the pieces are freed by their addresses, and the slack is not
    have hlt : (resize q (y.size - slack) t).memStat.usedSize < sizeBound := by
      have hlt₁ := h₁.used.usedSize_lt
      rw [hused]
      rwa [hh.usedSize, hslack, ← List.sum_cons] at hlt₁
    have hloose :=
      (hsplit.placed.inv.loose (h₁.hushed.cuts hsplit.arena)).resize q (y.size - slack)
    have hall : ∀ n ∈ n₀ :: ns, 0 < n := List.forall_mem_cons.mpr ⟨h0, hpos⟩
    obtain ⟨hfin, hufin⟩ := hloose.freeAll hperm (nodup_piecesFrom hall) hpieces
      (by rw [map_snd_piecesFrom, hused]; omega) hlt
    refine ⟨fun z => ?_, ?_⟩
    · rw [hfin]
      split
      · rename_i hz
        obtain ⟨⟨x, l⟩, hx, rfl⟩ := List.mem_map.mp (hperm.subset hz)
        exact (sizeAt_of_absent (hfresh x l hx)).symm
      · rename_i hz
        exact hothers z fun hin => hz (hperm.symm.subset hin)
    · rw [hufin, map_snd_piecesFrom, hused]
      omega
  · obtain ⟨ms, n, -, -, hsize⟩ := hsplit.last
    exact inOrder_resize_iff (hsplit.toCuts.tight h₁.tight) hsplit.get hsplit.lookup_last
      (by omega)

end Pieces

theorem PartInv.continuous {sizes addrs : List Nat} {streamId : Nat} (hdis : law.Disjoint)
    (hbd : dev.Bounded) (h : PartInv law m s) (hlen : 2 ≤ sizes.length) (hpos : ∀ n ∈ sizes, 0 < n)
    (hsum : sizes.sum + kDynamicMemAlignSize ≤ sizeBound)
    (hres : allocContinuousTensorMem dev sizes streamId s = some (addrs, s')) :
    (addrs = [] ∧ allocTensorMem dev sizes.sum false streamId s = some (0, s')) ∨
      ∃ a slack, addrs = (piecesFrom a sizes).map Prod.fst ∧ ContinuousSpec sizes a slack s s' := by
  have hbound : 0 < kDynamicMemAlignSize := by decide
  have htotal : sizes.foldl addSize 0 = sizes.sum := by
    rw [foldl_addSize (by omega), Nat.zero_add]
  unfold allocContinuousTensorMem at hres
  dsimp only at hres
  rw [htotal] at hres
  obtain ⟨⟨a, s₁⟩, halloc, hres⟩ := Option.bind_eq_some_iff.mp hres
  dsimp only at hres
  by_cases ha : a = 0
  · rw [if_pos ha] at hres
    cases hres
    exact .inl ⟨rfl, by rw [halloc, ha]⟩
  rw [if_neg ha, if_neg (by omega)] at hres
  obtain ⟨p, k, b, hh⟩ := h.handed hdis hbd hsum halloc ha
  have h₁ : PartInv law (max m s₁.memStat.usedSize) s₁ :=
    h.step hdis hbd (c := .alloc sizes.sum false streamId a) trivial hsum halloc
  have hlook : s₁.addrMemBufAllocators.lookup a = some (p, k) := by rw [hh.lookup, if_pos rfl]
  simp only [hlook, hh.get] at hres
  obtain ⟨n₀, ns, rfl⟩ : ∃ n₀ ns, sizes = n₀ :: ns := by
    cases sizes with
    | nil => cases hlen
    | cons n₀ ns => exact ⟨n₀, ns, rfl⟩
  have hne : ns ≠ [] := by
    rintro rfl
    exact absurd hlen (Nat.not_succ_le_self 1)
  have hn₀ := hpos n₀ (List.mem_cons_self ..)
  have hpos' : ∀ n ∈ ns, 0 < n := fun n hn => hpos n (List.mem_cons_of_mem _ hn)
  have hge : (n₀ :: ns).sum ≤ b.size := (alignMemorySize_ge hsum).1.trans hh.aligned
  rw [List.sum_cons] at hge hsum
  obtain ⟨slack, hslack⟩ : ∃ slack, b.size = n₀ + ns.sum + slack :=
    ⟨_, (Nat.add_sub_of_le hge).symm⟩
  have hla : s₁.addrMemBufAllocators.lookup b.addr = some (p, k) := by rw [hh.start, hlook]
  obtain ⟨t, q, y, hsplit, heq⟩ := splitContinuous_spec streamId [a] h₁.tight.toPlaced hne
    hh.get hla rfl hn₀ hpos' hslack (by omega)
  rw [hh.start] at hsplit heq
  have hrest : subSize (n₀ :: ns).sum n₀ = ns.sum := by
    rw [List.sum_cons, subSize_eq (by omega) (by omega)]
    omega
  rw [List.headD_cons, List.tail_cons, hrest, hh.start] at hres
  obtain ⟨rfl, rfl⟩ := Prod.mk.inj ((Option.some.inj hres).symm.trans heq)
  exact .inr ⟨a, slack, rfl, hh.continuousSpec h₁ hsplit hn₀ hpos' hslack⟩

/-- After every run of quiet calls whose requests do not wrap around, a continuous allocation of at
least two sizes, none of them zero, gets nothing or pieces as `ContinuousSpec` says. -/
theorem continuous_pieces (law : DeviceLaw dev) (hdis : law.Disjoint) (hbd : dev.Bounded)
    {enableVmm enableTiny : Bool} {d : δ} {calls : List Call} {sizes addrs : List Nat}
    {streamId : Nat}
    (hrun : Run (fun x c x' => CountedStep dev x c x' ∧ alignsUp c)
      (Pool.init enableVmm enableTiny d, 0) calls (s, m))
    (hlen : 2 ≤ sizes.length) (hpos : ∀ n ∈ sizes, 0 < n)
    (hsum : sizes.sum + kDynamicMemAlignSize ≤ sizeBound)
    (hres : allocContinuousTensorMem dev sizes streamId s = some (addrs, s')) :
    (addrs = [] ∧ allocTensorMem dev sizes.sum false streamId s = some (0, s')) ∨
      ∃ a slack, addrs = (piecesFrom a sizes).map Prod.fst ∧
        ContinuousSpec sizes a slack s s' :=
  (PartInv.run hdis hbd hrun).continuous hdis hbd hlen hpos hsum hres

/-- Of the 512 bytes for two tensors of 100 and 200 bytes, 212 are lost. -/
theorem continuous_pieces_hole :
    ∃ calls s m s', Run (fun x c x' => CountedStep (linearDevice false false) x c x' ∧ alignsUp c)
        (Pool.init false false (LinearState.init 0), 0) calls (s, m) ∧
      allocContinuousTensorMem (linearDevice false false) [100, 200] 0 s =
        some ([1536, 1636], s') ∧
      ContinuousSpec [100, 200] 1536 212 s s' := by
  have hexec : ((execOne (linearDevice false false) (Pool.init false false (LinearState.init 0))
      (.alloc 1000 false 0 512)).bind fun s =>
        (allocContinuousTensorMem (linearDevice false false) [100, 200] 0 s).map fun r =>
          (r.1, s.memStat.usedSize, r.2.memStat.usedSize)) = some ([1536, 1636], 1024, 1536) := by
    decide +kernel
  obtain ⟨s₁, h₁, hrest⟩ := Option.bind_eq_some_iff.mp hexec
  obtain ⟨⟨addrs, s₂⟩, h₂, hval⟩ := Option.map_eq_some_iff.mp hrest
  obtain ⟨rfl, hval⟩ := Prod.mk.inj hval
  obtain ⟨hused, hused'⟩ := Prod.mk.inj hval
  have hrun₁ : Run (fun x c x' => CountedStep (linearDevice false false) x c x' ∧ alignsUp c)
      (Pool.init false false (LinearState.init 0), 0) [] _ := .nil
  have hrun := hrun₁.snoc
    ⟨countedStep_of_execOne h₁ trivial, (by decide : 1000 + 512 ≤ 2 ^ 64)⟩
  rcases continuous_pieces (linearLaw false false) (linearLaw_disjoint false false)
    (linearDevice_bounded false false) hrun (by decide) (by decide) (by decide) h₂ with
    ⟨hnil, -⟩ | ⟨a, slack, haddrs, hspec⟩
  · cases hnil
  · obtain ⟨rfl, -⟩ := List.cons.inj haddrs
    have hslack := hspec.usedSize
    rw [show s₂.memStat.usedSize = 1536 from hused', show s₁.memStat.usedSize = 1024 from hused]
      at hslack
    have hsum : [100, 200].sum = 300 := rfl
    obtain rfl : slack = 212 := by omega
    exact ⟨_, s₁, _, s₂, hrun, h₂, hspec⟩

end Pool

end Ccbase.Memory
