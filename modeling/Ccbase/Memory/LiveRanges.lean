import Ccbase.Memory.LinearDevice

/-!
# Live allocations do not overlap

If the regions of a device do not overlap across kinds either
(`DeviceLaw.Disjoint`), no two blocks of the pool overlap. With the tiling of each
block this keeps all buffers apart. Over a run, the live allocations are
read off the calls alone: an address that `AllocTensorMem` has returned and that
has not been freed since.
-/

namespace Ccbase.Memory

open Ccbase.Lib Relation

variable {δ : Type} {dev : Device δ}

namespace Arena

variable {vmm : Bool} {law : DeviceLaw dev} {b₀ : Nat} {A A' : Arena δ}

/-- Only an expansion changes the blocks. -/
theorem Background.blocks_cases (h : Background dev vmm A A') :
    (A'.blocks = A.blocks ∧ A'.owns = A.owns) ∨
    ∃ k n size addr d', size ≠ 0 ∧
      dev.allocMem (isEager dev vmm k) n A.env.device = some ((size, addr), d') ∧
      A'.blocks = A.blocks.new (addr, size) ∧
      A'.owns = Function.update A.owns k fun B => A.owns k B ∨ B = A.blocks.next := by
  cases h with
  | churn hs hc =>
      subst hs
      cases hc with
      | split hp hB hfree hn => exact .inl ⟨rfl, put_owns_eq rfl⟩
      | mapFail hp hB hst hn hcb hk => exact .inl ⟨rfl, put_owns_eq rfl⟩
      | expandFail hcb => exact .inl ⟨rfl, put_owns_eq rfl⟩
      | expand hcb =>
          rcases Pool.memBlockExpander_cases dev hcb with ⟨hr, _⟩ | ⟨n, sz, ad, d', hd', hr⟩
          · cases hr
          · rcases hr with ⟨_, hr, _⟩ | ⟨hsz, sid, hr, rfl⟩
            · cases hr
            · cases hr
              exact .inr ⟨_, n, sz, ad, d', hsz, hd', rfl, rfl⟩
  | sweep hsw => exact .inl ⟨hsw.frame.blocks, hsw.frame.owns⟩
  | sync hd => exact .inl ⟨rfl, rfl⟩

/-- A block of the pool is an old one or a region the device has just handed
out. -/
theorem Background.block_cases (h : Background dev vmm A A') {k : AllocatorKey} {B : Nat}
    {r : Nat × Nat} (hB : A'.owns k B) (hr : A'.blocks.get B = some r) :
    (A.owns k B ∧ A.blocks.get B = some r) ∨ (B = A.blocks.next ∧ r.2 ≠ 0 ∧
      ∃ eager n d', dev.allocMem eager n A.env.device = some ((r.2, r.1), d')) := by
  rcases h.blocks_cases with ⟨hblocks, howns⟩ | ⟨k', n, size, addr, d', hsz, hd', hblocks, howns⟩
  · rw [hblocks] at hr
    rw [howns] at hB
    exact .inl ⟨hB, hr⟩
  · rw [howns] at hB
    rw [hblocks, Heap.get_new] at hr
    split at hr
    · cases hr
      exact .inr ⟨by assumption, hsz, _, n, d', hd'⟩
    · rename_i hne
      refine .inl ⟨?_, hr⟩
      by_cases hk : k = k'
      · subst hk
        rw [Function.update_self] at hB
        exact hB.resolve_right hne
      · rwa [Function.update_of_ne hk] at hB

/-- The blocks of the pool do not overlap. -/
def Spread (A : Arena δ) : Prop :=
  ∀ k k' B B' r r', A.owns k B → A.owns k' B' → B ≠ B' → A.blocks.get B = some r →
    A.blocks.get B' = some r' → Apart r r'

theorem Spread.congr (h : Spread A) (hblocks : A'.blocks = A.blocks)
    (howns : A'.owns = A.owns) : Spread A' := by
  unfold Spread
  rw [hblocks, howns]
  exact h

theorem Spread.background (hdis : law.Disjoint) (hb : Base law vmm b₀ A) (h : Spread A)
    (hs : Background dev vmm A A') : Spread A' := by
  have hfresh : ∀ k B r r', A.owns k B → A.blocks.get B = some r → r'.2 ≠ 0 →
      (∃ eager n d', dev.allocMem eager n A.env.device = some ((r'.2, r'.1), d')) →
      Apart r' r := by
    rintro k B r r' hB hr hsz ⟨eager, n, d', hd'⟩
    obtain ⟨r₀, hr₀, hheld⟩ := hb.held k B hB
    rw [hr] at hr₀
    cases hr₀
    exact hdis _ _ _ _ _ _ hd' hsz _ r hheld
  intro k k' B B' r r' hB hB' hne hr hr'
  rcases hs.block_cases hB hr with ⟨hB, hr⟩ | ⟨rfl, hsz, hnew⟩
  · rcases hs.block_cases hB' hr' with ⟨hB', hr'⟩ | ⟨rfl, hsz', hnew'⟩
    · exact h k k' B B' r r' hB hB' hne hr hr'
    · exact (hfresh k B r r' hB hr hsz' hnew').symm
  · rcases hs.block_cases hB' hr' with ⟨hB', hr'⟩ | ⟨rfl, _, _⟩
    · exact hfresh k' B' r' r hB' hr' hsz hnew
    · exact absurd rfl hne

theorem Spread.path (hdis : law.Disjoint) (hb : Base law vmm b₀ A) (h : Spread A)
    (hs : ReflTransGen (Background dev vmm) A A') : Spread A' := by
  induction hs with
  | refl => exact h
  | tail hpath hstep ih => exact ih.background hdis (hb.path hpath) hstep

end Arena

namespace Pool

variable {law : DeviceLaw dev} {b₀ : Nat} {s s' : Pool δ}

/-- One of two buffers ends before the other starts. -/
theorem Inv.apart_of_ne (h : Inv law b₀ s) (hs : Arena.Spread s.arena) {p q : Nat}
    {d e : BufData} (hp : s.arena.bufs.get p = some d) (hq : s.arena.bufs.get q = some e)
    (hdlow : b₀ ≤ d.memBlock) (helow : b₀ ≤ e.memBlock) (hpq : p ≠ q) :
    d.addr + d.size ≤ e.addr ∨ e.addr + e.size ≤ d.addr := by
  obtain ⟨lay, hlay⟩ := h.alloc
  obtain ⟨k, al, hal, hB⟩ := h.base.owned p d hp hdlow
  obtain ⟨k', al', hal', hB'⟩ := h.base.owned q e hq helow
  by_cases hk : k = k'
  · subst hk
    rw [hal] at hal'
    cases hal'
    exact (hlay k al hal).apart_of_ne hp hq hB hB' hpq
  · obtain ⟨blk, hblk, h1, h2⟩ := (hlay k al hal).inside hp hB
    obtain ⟨blk', hblk', h1', h2'⟩ := (hlay k' al' hal').inside hq hB'
    have hne : d.memBlock ≠ e.memBlock := fun heq => hk
      (h.base.excl k k' d.memBlock ⟨al, hal, hB⟩ ⟨al', hal', by rw [heq]; exact hB'⟩)
    have hap : Apart blk.span blk'.span := hs k k' _ _ _ _ ⟨al, hal, hB⟩ ⟨al', hal', hB'⟩
      hne (by simp [arena, hblk]) (by simp [arena, hblk'])
    unfold Apart MemBlock.span at hap
    omega

/-- Two buffers that share a byte are the same buffer. -/
theorem Inv.eq_of_overlap (h : Inv law b₀ s) (hs : Arena.Spread s.arena) {p q : Nat}
    {d e : BufData} (hp : s.arena.bufs.get p = some d) (hq : s.arena.bufs.get q = some e)
    (hdlow : b₀ ≤ d.memBlock) (helow : b₀ ≤ e.memBlock) {a : Nat}
    (ha : d.addr ≤ a ∧ a < d.addr + d.size) (ha' : e.addr ≤ a ∧ a < e.addr + e.size) :
    p = q := by
  by_contra hpq
  have := h.apart_of_ne hs hp hq hdlow helow hpq
  omega

end Pool

namespace Arena

variable {vmm : Bool} {law : DeviceLaw dev} {b₀ : Nat} {A A' : Arena δ}

/-- Without events an allocation works in the background and then hands out a
buffer or fails. -/
theorem AllocStep.noEvents {size addr : Nat} {ex : Prop}
    (h : AllocStep dev vmm size ex A addr A') (hp : A.pairs.entries.isEmpty = true) :
    (addr = 0 ∧ ReflTransGen (Background dev vmm) A A') ∨
    ∃ p k A₁ d, ReflTransGen (Background dev vmm) A A₁ ∧ Hand dev size p k A₁ A' ∧
      A'.bufs.get p = some d ∧ addr = d.addr := by
  have hsync : ∀ A₁ A₂, ReflTransGen (Background dev vmm) A A₁ → SyncAll dev A₁ A₂ →
      A₂ = A₁ := by
    intro A₁ A₂ hpath hs
    cases hs with
    | none _ => rfl
    | all hne _ =>
        rw [(Calm.of_path hpath).pairs, hp] at hne
        cases hne
  cases h with
  | fail hpath => exact .inl ⟨rfl, hpath⟩
  | hand hpath hh hd => exact .inr ⟨_, _, _, _, hpath, hh, hd, rfl⟩
  | syncFail _ hpath hs hpath' =>
      cases hsync _ _ hpath hs
      exact .inl ⟨rfl, hpath.trans hpath'⟩
  | syncHand _ hpath hs hpath' hh hd =>
      cases hsync _ _ hpath hs
      exact .inr ⟨_, _, _, _, hpath.trans hpath', hh, hd, rfl⟩

end Arena

namespace Pool

/-- The range of the buffer that the address map holds for an address. -/
def rangeAt (s : Pool δ) (addr : Nat) : Option (Nat × Nat) :=
  (s.addrMemBufAllocators.lookup addr).bind fun v =>
    (s.bufs.get v.1).map fun b => (b.addr, b.size)

end Pool

/-- The live allocations `(address, requested size)` after one more call. -/
def Call.liveAfter (live : List (Nat × Nat)) : Call → List (Nat × Nat)
  | .alloc size _ _ addr => if addr = 0 then live else (addr, size) :: live
  | .free addr => live.filter fun x => decide (x.1 ≠ addr)
  | _ => live

/-- The live allocations after a run. -/
def liveAllocs (calls : List Call) : List (Nat × Nat) := calls.foldl Call.liveAfter []

theorem liveAllocs_snoc (calls : List Call) (c : Call) :
    liveAllocs (calls ++ [c]) = c.liveAfter (liveAllocs calls) := by
  simp [liveAllocs]

namespace Pool

variable {law : DeviceLaw dev} {s s' : Pool δ}

/-- The invariant that keeps live allocations apart. -/
structure LiveInv (law : DeviceLaw dev) (live : List (Nat × Nat)) (s : Pool δ) : Prop where
  inv : Inv law 0 s
  spread : Arena.Spread s.arena
  noEvents : s.arena.pairs.entries.isEmpty = true
  pos : ∀ p d, s.arena.bufs.get p = some d → ¬ d.status.isFree → 0 < d.size
  recorded : ∀ x ∈ live, ∃ p k d, s.arena.live.lookup x.1 = some (p, k) ∧
    s.arena.bufs.get p = some d ∧ x.2 ≤ d.size
  nodup : (live.map Prod.fst).Nodup

/-- Work in the background is no concern of live allocations. -/
theorem LiveInv.quiet {live : List (Nat × Nat)} (hdis : law.Disjoint) (h : LiveInv law live s)
    (hq : Quiet law 0 s s') : LiveInv law live s' := by
  have hcalm := Arena.Calm.of_path hq.path
  refine ⟨hq.inv, h.spread.path hdis h.inv.base hq.path, by rw [hcalm.pairs]; exact h.noEvents,
    ?_, ?_, h.nodup⟩
  · intro p d hd hst
    exact h.pos p d ((hcalm.live_iff p d hst).mp hd) hst
  · intro x hx
    obtain ⟨p, k, d, hl, hd, hn⟩ := h.recorded x hx
    obtain ⟨d', hd', _, hst, _⟩ := h.inv.base.live _ _ _ hl
    rw [hd] at hd'
    cases hd'
    exact ⟨p, k, d, by rw [hcalm.live]; exact hl, (hcalm.live_iff p d hst).mpr hd, hn⟩

/-- The address of a new buffer is not in the map yet: the buffer in the map
would share its first byte. -/
theorem hand_fresh {size p : Nat} {k : AllocatorKey} {d₀ : BufData} {A : Arena δ}
    (hinv : Inv law 0 s') (hsp : Arena.Spread s'.arena)
    (hb : Arena.Base law s'.enableVmm 0 A)
    (hpos : ∀ p d, s'.arena.bufs.get p = some d → ¬ d.status.isFree → 0 < d.size)
    (hf : Arena.HandFrame size p k d₀ A s'.arena) : A.live.lookup d₀.addr = none := by
  cases hl : A.live.lookup d₀.addr with
  | none => rfl
  | some v =>
      obtain ⟨q, k'⟩ := v
      obtain ⟨d, hd, ha, hst, _⟩ := hb.live _ _ _ hl
      obtain ⟨hqp, hq⟩ := hf.get hd hst
      have hp : s'.arena.bufs.get p = some { d₀ with status := .used } := by
        rw [hf.bufs, Heap.get_modify_self, hf.free.1]
        rfl
      have h0 := hpos p _ hp Arena.not_isFree_used
      have h0 : 0 < d₀.size := h0
      have h1 := hpos q d hq hst
      refine absurd (hinv.eq_of_overlap hsp hq hp (Nat.zero_le _) (Nat.zero_le _) (a := d.addr)
        ⟨by omega, by omega⟩ ⟨?_, ?_⟩) hqp
      · exact Nat.le_of_eq ha.symm
      · show d.addr < d₀.addr + d₀.size
        omega

theorem LiveInv.alloc {live : List (Nat × Nat)} {size streamId addr : Nat}
    {fromPersistentMem : Bool} (hdis : law.Disjoint) (h : LiveInv law live s)
    (hsize : size + kDynamicMemAlignSize ≤ sizeBound)
    (hres : allocTensorMem dev size fromPersistentMem streamId s = some (addr, s')) :
    LiveInv law ((Call.alloc size fromPersistentMem streamId addr).liveAfter live) s' := by
  have hd := allocTensorMem_spec h.inv (.inl rfl) hres
  obtain ⟨hge, halign⟩ := alignMemorySize_ge hsize
  rcases hd.step.noEvents h.noEvents with ⟨rfl, hpath⟩ | ⟨p, k, A, d, hpath, hh, hdp, rfl⟩
  · simp only [Call.liveAfter, if_true]
    exact h.quiet hdis ⟨hd.inv, hd.vmm, hpath⟩
  · obtain ⟨d₀, hf⟩ := hh.frame
    have hcalm := Arena.Calm.of_path hpath
    have hbA := h.inv.base.path hpath
    have hspread : Arena.Spread s'.arena :=
      (h.spread.path hdis h.inv.base hpath).congr hh.blocks.1 hh.blocks.2
    have hpos : ∀ q e, s'.arena.bufs.get q = some e → ¬ e.status.isFree → 0 < e.size := by
      intro q e he hst
      rcases hf.get_back he with ⟨_, rfl⟩ | ⟨_, he⟩
      · have := hf.size
        show 0 < d₀.size
        omega
      · exact h.pos q e ((hcalm.live_iff q e hst).mp he) hst
    -- no buffer in use starts at the address that is handed out
    have hnone := hand_fresh hd.inv hspread (hd.vmm ▸ hbA) hpos hf
    have hlive : s'.arena.live = s.arena.live.insert d₀.addr (p, k) := by
      rw [hf.live, hnone, hcalm.live]
      rfl
    rw [hcalm.live] at hnone
    have hdd : d = { d₀ with status := .used } := by
      rcases hf.get_back hdp with ⟨_, hdd⟩ | ⟨hne, _⟩
      · exact hdd
      · exact absurd rfl hne
    have haddr : d.addr = d₀.addr := by rw [hdd]
    -- the buffers handed out before are still there
    have hold : ∀ x ∈ live, x.1 ≠ d₀.addr ∧ ∃ p' k' e, s'.arena.live.lookup x.1 = some (p', k') ∧
        s'.arena.bufs.get p' = some e ∧ x.2 ≤ e.size := by
      intro x hx
      obtain ⟨p', k', e, hl, he, hn⟩ := h.recorded x hx
      have hne : x.1 ≠ d₀.addr := fun heq => by
        rw [heq, hnone] at hl
        cases hl
      obtain ⟨e', he', _, hst, _⟩ := h.inv.base.live _ _ _ hl
      rw [he] at he'
      cases he'
      refine ⟨hne, p', k', e, ?_, ?_, hn⟩
      · rw [hlive, AList.lookup_insert_ne hne]
        exact hl
      · exact (hf.get ((hcalm.live_iff p' e hst).mpr he) hst).2
    refine ⟨hd.inv, hspread, ?_, hpos, ?_, ?_⟩
    · rw [hf.pairs, hcalm.pairs]
      exact h.noEvents
    · intro x hx
      simp only [Call.liveAfter] at hx
      split at hx
      · exact (hold x hx).2
      · rcases List.mem_cons.mp hx with rfl | hx
        · refine ⟨p, k, d, ?_, hdp, ?_⟩
          · rw [haddr, hlive, AList.lookup_insert]
          · have := hf.size
            rw [hdd]
            show size ≤ d₀.size
            omega
        · exact (hold x hx).2
    · simp only [Call.liveAfter]
      split
      · exact h.nodup
      · rw [List.map_cons, List.nodup_cons]
        refine ⟨fun hmem => ?_, h.nodup⟩
        obtain ⟨x, hx, heq⟩ := List.mem_map.mp hmem
        exact (hold x hx).1 (heq.trans haddr)

theorem LiveInv.free {live : List (Nat × Nat)} (h : LiveInv law live s) (addr : Nat) :
    LiveInv law ((Call.free addr).liveAfter live) (freeTensorMem addr s) := by
  have hd := freeTensorMem_spec h.inv addr
  obtain ⟨ok, hstep⟩ := hd.step
  have hf := hstep.frame h.inv.base
  refine ⟨hd.inv, h.spread.congr hf.blocks hf.owns, by rw [hf.pairs]; exact h.noEvents, ?_, ?_,
    h.nodup.sublist (List.filter_sublist.map _)⟩
  · intro q e he hst
    obtain ⟨e₀, he₀, hst₀, heq⟩ := hf.back q e he hst
    have := h.pos q e₀ he₀ hst₀
    rw [heq]
    exact this
  · intro x hx
    obtain ⟨hx, hne⟩ := List.mem_filter.mp hx
    have hne : x.1 ≠ addr := by simpa using hne
    obtain ⟨p, k, d, hl, hd, hn⟩ := h.recorded x hx
    obtain ⟨d', hd', ha, hst, _⟩ := h.inv.base.live _ _ _ hl
    rw [hd] at hd'
    cases hd'
    exact ⟨p, k, d, by rw [hf.lookup _ hne]; exact hl,
      hf.kept p d hd hst (by rw [ha]; exact hne), hn⟩

/-! ## Runs -/

/-- The calls of a client that records no events. -/
def plainCall : Call → Prop
  | .alloc size _ _ _ => size ≤ 2 ^ 62
  | .free _ => True
  | .defrag => True
  | _ => False

instance : DecidablePred plainCall
  | .alloc size _ _ _ => inferInstanceAs (Decidable (size ≤ 2 ^ 62))
  | .free _ => isTrue trivial
  | .defrag => isTrue trivial
  | .freePart _ _ _ => isFalse id
  | .record _ _ _ _ => isFalse id
  | .wait _ _ _ => isFalse id
  | .waitMem _ _ _ => isFalse id
  | .syncAllEvents => isFalse id

theorem LiveInv.step {live : List (Nat × Nat)} (hdis : law.Disjoint) (h : LiveInv law live s)
    {c : Call} (hc : plainCall c) (hs : Step dev s c s') : LiveInv law (c.liveAfter live) s' := by
  cases c with
  | alloc size b n addr =>
      refine h.alloc hdis ?_ hs
      have hk : kDynamicMemAlignSize = 512 := rfl
      have hM : sizeBound = 2 ^ 64 := rfl
      have : size ≤ 2 ^ 62 := hc
      omega
  | free addr =>
      cases hs
      exact h.free addr
  | defrag => exact h.quiet hdis (defragMemory_spec h.inv hs)
  | freePart _ _ _ => exact hc.elim
  | record _ _ _ _ => exact hc.elim
  | wait _ _ _ => exact hc.elim
  | waitMem _ _ _ => exact hc.elim
  | syncAllEvents => exact hc.elim

theorem LiveInv.init (law : DeviceLaw dev) (enableVmm enableTiny : Bool) (d : δ) :
    LiveInv law [] (Pool.init enableVmm enableTiny d) := by
  have hi := Inv.init law enableVmm enableTiny d
  refine ⟨hi, ?_, rfl, nofun, nofun, List.nodup_nil⟩
  intro k _ B _ r _ _ _ _ hr
  cases hr

/-- A live allocation lies in exactly one block of the allocator that the map
records for it, and is as large as requested. -/
theorem LiveInv.placed {live : List (Nat × Nat)} (h : LiveInv law live s) {x : Nat × Nat}
    (hx : x ∈ live) :
    ∃ p k b al, s.addrMemBufAllocators.lookup x.1 = some (p, k) ∧ s.bufs.get p = some b ∧
      b.addr = x.1 ∧ x.2 ≤ b.size ∧ s.allocator? k = some al ∧
      ∃! B, B ∈ al.memBlocks ∧ ∃ blk, s.blocks.get B = some blk ∧ blk.addr ≤ b.addr ∧
        b.addr + b.size ≤ blk.addr + blk.size := by
  obtain ⟨p, k, d, hl, hd, hn⟩ := h.recorded x hx
  obtain ⟨al, b, hal, hb, ha, hst, hB⟩ := h.inv.lookup hl
  have hd' := dataOf_get hb
  rw [show (dataOf s.bufs).get p = some d from hd] at hd'
  cases hd'
  obtain ⟨lay, hlay⟩ := h.inv.alloc
  obtain ⟨blk, hblk, h1, h2⟩ := (hlay k al hal).inside hd hB
  refine ⟨p, k, b, al, hl, hb, ha, hn, hal, b.memBlock, ⟨hB, blk, hblk, h1, h2⟩, ?_⟩
  rintro C ⟨hC, blk', hblk', h1', h2'⟩
  by_cases hCB : C = b.memBlock
  · exact hCB
  · have hap := (hlay k al hal).apart C hC _ hB hCB blk' blk hblk' hblk
    have hpos : 0 < b.size := h.pos p b.data hd hst
    have hbs : b.data.size = b.size := rfl
    have hba : b.data.addr = b.addr := rfl
    unfold MemBlock.Apart at hap
    omega

/-- Two live allocations have no byte in common. -/
theorem LiveInv.apart {live : List (Nat × Nat)} (h : LiveInv law live s) {x y : Nat × Nat}
    (hx : x ∈ live) (hy : y ∈ live) (hne : x.1 ≠ y.1) :
    ∃ r r', s.rangeAt x.1 = some r ∧ s.rangeAt y.1 = some r' ∧ Apart r r' := by
  obtain ⟨p, k, b, al, hl, hb, ha, _⟩ := h.placed hx
  obtain ⟨q, k', e, al', hl', he, ha', _⟩ := h.placed hy
  refine ⟨(b.addr, b.size), (e.addr, e.size), by simp [rangeAt, hl, hb],
    by simp [rangeAt, hl', he], ?_⟩
  have hpq : p ≠ q := fun heq => by
    rw [heq, he] at hb
    cases hb
    exact hne (ha.symm.trans ha')
  have hover := fun a => h.inv.eq_of_overlap h.spread (dataOf_get hb) (dataOf_get he)
    (Nat.zero_le _) (Nat.zero_le _) (a := a)
  have hbs : b.data.size = b.size ∧ b.data.addr = b.addr := ⟨rfl, rfl⟩
  have hes : e.data.size = e.size ∧ e.data.addr = e.addr := ⟨rfl, rfl⟩
  obtain ⟨_, b', _, hb', _, hst, _⟩ := h.inv.lookup hl
  obtain ⟨_, e', _, he', _, hst', _⟩ := h.inv.lookup hl'
  rw [hb] at hb'
  rw [he] at he'
  cases hb'
  cases he'
  have hbpos : 0 < b.size := h.pos p b.data (dataOf_get hb) hst
  have hepos : 0 < e.size := h.pos q e.data (dataOf_get he) hst'
  show b.addr + b.size ≤ e.addr ∨ e.addr + e.size ≤ b.addr
  -- otherwise the larger of the two starts lies in both
  by_contra hcon
  refine hpq (hover (max b.addr e.addr) ⟨?_, ?_⟩ ⟨?_, ?_⟩) <;> omega

/-- In every run of `AllocTensorMem`, `FreeTensorMem` and `DefragMemory` the
buffers of the live allocations are pairwise disjoint, each in exactly one block
of its allocator and at least as large as requested. -/
theorem live_allocations_disjoint (law : DeviceLaw dev) (hdis : law.Disjoint)
    (enableVmm enableTiny : Bool) (d : δ) (calls : List Call)
    (hrun : Run (fun s c s' => Step dev s c s' ∧ plainCall c)
      (Pool.init enableVmm enableTiny d) calls s) :
    (liveAllocs calls).Pairwise (fun x y => ∃ r r', s.rangeAt x.1 = some r ∧
      s.rangeAt y.1 = some r' ∧ Apart r r') ∧
    ∀ x ∈ liveAllocs calls, ∃ p k b al, s.addrMemBufAllocators.lookup x.1 = some (p, k) ∧
      s.bufs.get p = some b ∧ b.addr = x.1 ∧ x.2 ≤ b.size ∧ s.allocator? k = some al ∧
      ∃! B, B ∈ al.memBlocks ∧ ∃ blk, s.blocks.get B = some blk ∧ blk.addr ≤ b.addr ∧
        b.addr + b.size ≤ blk.addr + blk.size := by
  have hinv : LiveInv law (liveAllocs calls) s :=
    hrun.inv (I := fun calls s => LiveInv law (liveAllocs calls) s)
      (LiveInv.init law enableVmm enableTiny d) fun calls s c s' h hs => by
        rw [liveAllocs_snoc]
        exact h.step hdis hs.2 hs.1
  refine ⟨?_, fun x hx => hinv.placed hx⟩
  have hnd : (liveAllocs calls).Pairwise fun x y => x.1 ≠ y.1 := by
    have := hinv.nodup
    rwa [List.Nodup, List.pairwise_map] at this
  exact hnd.imp_of_mem fun hx hy hne => hinv.apart hx hy hne

/-- Three allocations, one of them freed, a wild free and a defragmentation. -/
theorem live_allocations_disjoint_three :
    ∃ calls s, Run (fun s c s' => Step (linearDevice false true) s c s' ∧ plainCall c)
        (Pool.init true true (LinearState.init (2 ^ 32))) calls s ∧
      liveAllocs calls = [(1049088, 2 ^ 21), (512, 1000)] ∧
      (liveAllocs calls).Pairwise (fun x y => ∃ r r', s.rangeAt x.1 = some r ∧
        s.rangeAt y.1 = some r' ∧ Apart r r') ∧
      ∀ x ∈ liveAllocs calls, ∃ p k b al, s.addrMemBufAllocators.lookup x.1 = some (p, k) ∧
        s.bufs.get p = some b ∧ b.addr = x.1 ∧ x.2 ≤ b.size ∧ s.allocator? k = some al ∧
        ∃! B, B ∈ al.memBlocks ∧ ∃ blk, s.blocks.get B = some blk ∧ blk.addr ≤ b.addr ∧
          b.addr + b.size ≤ blk.addr + blk.size := by
  let calls : List Call := [.alloc 1000 false 0 512, .alloc 10 true 3 1536,
    .alloc (2 ^ 21) false 0 1049088, .free 1536, .free 7, .defrag]
  have hexec : (exec (linearDevice false true) (fun _ => plainCall)
      (Pool.init true true (LinearState.init (2 ^ 32))) calls).isSome = true := by
    decide +kernel
  obtain ⟨s, hs⟩ := Option.isSome_iff_exists.mp hexec
  have hrun := run_of_exec hs
  exact ⟨calls, s, hrun, by decide,
    live_allocations_disjoint (linearLaw false true)
      (linearLaw_disjoint false true) true true _ _ hrun⟩

end Pool

end Ccbase.Memory
