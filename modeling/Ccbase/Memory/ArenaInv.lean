import Ccbase.Memory.Arena

/-!
# The base invariant of the arena

`FreeWork` is what background steps do to the buffers: those in use stay as
they are, and what is there afterwards is either as it was or free and made of
free memory of the same block. `Base` is the invariant that every other result
about the pool builds on: blocks have one owner and are held by the device,
buffers belong to owned blocks, free buffers carry no events, and the address
map points to buffers in use. The parameter `b₀` hides what was in memory before
a certain moment: only blocks from `b₀` on are looked at.
-/

namespace Ccbase.Memory

open Ccbase.Lib Relation

variable {δ : Type}

/-- `D'` comes from `D` by work on free buffers. -/
structure FreeWork (D D' : Heap BufData) : Prop where
  live : ∀ r d, D.get r = some d → ¬ d.status.isFree → D'.get r = some d
  back : ∀ r d', D'.get r = some d' → D.get r = some d' ∨ (d'.status.isFree ∧
    ∃ q d, D.get q = some d ∧ d.memBlock = d'.memBlock ∧ d.status.isFree ∧
      (d'.isEventNotUsed = true ∨ d'.toEventBase = d.toEventBase))

namespace FreeWork

variable {D D' D'' : Heap BufData}

theorem refl (D : Heap BufData) : FreeWork D D := ⟨fun _ _ h _ => h, fun _ _ h => .inl h⟩

theorem trans (h : FreeWork D D') (h' : FreeWork D' D'') : FreeWork D D'' where
  live := fun r d hd hst => h'.live r d (h.live r d hd hst) hst
  back := fun r d'' hd'' => by
    rcases h'.back r d'' hd'' with hd' | ⟨hst, q, d', hq, hB, hst', hev⟩
    · exact h.back r d'' hd'
    · refine .inr ⟨hst, ?_⟩
      rcases h.back q d' hq with hq | ⟨_, q₀, d, hq₀, hB₀, hst₀, hev₀⟩
      · exact ⟨q, d', hq, hB, hst', hev⟩
      · refine ⟨q₀, d, hq₀, hB₀.trans hB, hst₀, ?_⟩
        rcases hev with hev | hev
        · exact .inl hev
        · rw [hev]
          exact hev₀

/-- A buffer is in use after the work exactly if it was before. -/
theorem live_iff (h : FreeWork D D') {r : Nat} {d : BufData} (hst : ¬ d.status.isFree) :
    D'.get r = some d ↔ D.get r = some d := by
  constructor
  · intro hd
    rcases h.back r d hd with hd | ⟨hfree, _⟩
    · exact hd
    · exact absurd hfree hst
  · intro hd
    exact h.live r d hd hst

/-- A write to a free buffer that leaves it free, in its block, and quiet. -/
theorem modify {p : Nat} {d : BufData} {f : BufData → BufData} (hp : D.get p = some d)
    (hst : d.status.isFree) (hst' : (f d).status.isFree)
    (hB : (f d).memBlock = d.memBlock) (hev : (f d).toEventBase = d.toEventBase) :
    FreeWork D (D.modify p f) where
  live := fun r x hx hlive => by
    have hrp : r ≠ p := fun heq => by
      rw [heq, hp] at hx
      cases hx
      exact hlive hst
    rw [Heap.get_modify_ne _ _ hrp, hx]
  back := fun r x hx => by
    by_cases hrp : r = p
    · subst hrp
      rw [Heap.get_modify_self, hp] at hx
      cases hx
      exact .inr ⟨hst', r, d, hp, hB.symm, hst, .inr hev⟩
    · rw [Heap.get_modify_ne _ _ hrp] at hx
      exact .inl hx

theorem delete {p : Nat} {d : BufData} (hp : D.get p = some d) (hst : d.status.isFree) :
    FreeWork D (D.delete p) where
  live := fun r x hx hlive => by
    have hrp : r ≠ p := fun heq => by
      rw [heq, hp] at hx
      cases hx
      exact hlive hst
    rw [Heap.get_delete_ne _ hrp, hx]
  back := fun r x hx => by
    rw [Heap.get_delete] at hx
    split at hx
    · cases hx
    · exact .inl hx

/-- A new buffer in place of free memory. -/
theorem new {q : Nat} {d x : BufData} (hq : D.get q = some d) (hst : d.status.isFree)
    (hst' : x.status.isFree) (hB : x.memBlock = d.memBlock)
    (hquiet : x.isEventNotUsed = true) : FreeWork D (D.new x) where
  live := fun r y hy _ => by rw [Heap.get_new, if_neg (Heap.ne_next hy), hy]
  back := fun r y hy => by
    rw [Heap.get_new] at hy
    split at hy
    · cases hy
      exact .inr ⟨hst', q, d, hq, hB.symm, hst, .inl hquiet⟩
    · exact .inl hy

theorem merge {own : Nat → Prop} (h : Merge own D D') : FreeWork D D' := by
  cases h with
  | mk hp hq hne hB hBq hfree hst hquiet hadj =>
      refine (modify hp hfree hfree rfl rfl).trans (delete ?_ (hst ▸ hfree))
      rw [Heap.get_modify_ne _ _ hne.symm]
      exact hq

theorem merges {own : Nat → Prop} (h : ReflTransGen (Merge own) D D') : FreeWork D D' := by
  induction h with
  | refl => exact refl D
  | tail _ hstep ih => exact ih.trans (merge hstep)

theorem split {p n : Nat} {d : BufData} (hp : D.get p = some d) (hst : d.status.isFree) :
    FreeWork D ((D.new (d.rest n)).modify p fun x => { x with size := n }) := by
  refine (new (x := d.rest n) hp hst hst rfl rfl).trans (modify (d := d) ?_ hst hst rfl rfl)
  rw [Heap.get_new, if_neg (Heap.ne_next hp), hp]

theorem sweeps {ε : Type} {cb : Callbacks ε} {m m' : Core ε} {n : Nat}
    (h : Sweeps cb m n m') : FreeWork m.bufs m'.bufs := by
  induction h with
  | refl => exact refl _
  | convert _ hp hB hst ih =>
      exact ih.trans (modify hp (.inl hst) (.inr rfl) rfl rfl)
  | merge _ hD ih => exact ih.trans (merge hD)
  | unmap _ hp hB hst hcb ih => exact ih

end FreeWork

/-- A sweep changes buffers and device, nothing else. -/
theorem Sweeps.frame {ε : Type} {cb : Callbacks ε} {m m' : Core ε} {n : Nat}
    (h : Sweeps cb m n m') : m'.blocks = m.blocks ∧ m'.own = m.own := by
  induction h with
  | refl => exact ⟨rfl, rfl⟩
  | convert _ _ _ _ ih => exact ih
  | merge _ _ ih => exact ih
  | unmap _ _ _ _ _ ih => exact ih

namespace Arena

/-- An allocator whose blocks stay the same. -/
theorem put_owns_eq {A : Arena δ} {k : AllocatorKey} {m : Core (Env δ)}
    (h : m.own = A.owns k) : (A.put k m).owns = A.owns := by
  show Function.update A.owns k m.own = A.owns
  rw [h, Function.update_eq_self]

/-- What a background step leaves alone. -/
structure Calm (A A' : Arena δ) : Prop where
  live_iff : ∀ r d, ¬ d.status.isFree → (A'.bufs.get r = some d ↔ A.bufs.get r = some d)
  live : A'.live = A.live
  pairs : A'.pairs = A.pairs
  usedSize : A'.env.memStat.usedSize = A.env.memStat.usedSize
  peakSize : A'.env.memStat.peakSize = A.env.memStat.peakSize
  usedByEvent : A'.env.memStat.usedByEventSize = A.env.memStat.usedByEventSize

theorem Calm.refl (A : Arena δ) : Calm A A := ⟨fun _ _ _ => Iff.rfl, rfl, rfl, rfl, rfl, rfl⟩

theorem Calm.trans {A A' A'' : Arena δ} (h : Calm A A') (h' : Calm A' A'') : Calm A A'' where
  live_iff := fun r d hst => (h'.live_iff r d hst).trans (h.live_iff r d hst)
  live := h'.live.trans h.live
  pairs := h'.pairs.trans h.pairs
  usedSize := h'.usedSize.trans h.usedSize
  peakSize := h'.peakSize.trans h.peakSize
  usedByEvent := h'.usedByEvent.trans h.usedByEvent

/-- Work on free buffers, with the counters of buffers in use untouched. -/
theorem Calm.of_freeWork {A A' : Arena δ} (hD : FreeWork A.bufs A'.bufs)
    (hlive : A'.live = A.live) (hpairs : A'.pairs = A.pairs)
    (hused : A'.env.memStat.usedSize = A.env.memStat.usedSize)
    (hpeak : A'.env.memStat.peakSize = A.env.memStat.peakSize)
    (hev : A'.env.memStat.usedByEventSize = A.env.memStat.usedByEventSize) : Calm A A' :=
  ⟨fun _ _ hst => hD.live_iff hst, hlive, hpairs, hused, hpeak, hev⟩

variable {dev : Device δ} {vmm : Bool}

theorem sweeps_memStat {s : Pool δ} {k : AllocatorKey} {m m' : Core (Env δ)} {n : Nat}
    (h : Sweeps (Pool.callbacks dev s k) m n m') : m'.env.memStat = m.env.memStat := by
  induction h with
  | refl => rfl
  | convert _ _ _ _ ih => exact ih
  | merge _ _ ih => exact ih
  | unmap _ _ _ _ hcb ih =>
      obtain ⟨d', _, rfl⟩ := Pool.memEagerFreer_eq dev hcb
      exact ih

/-- The frame of a sweep over all allocators. -/
structure SweepFrame (A A' : Arena δ) : Prop where
  work : FreeWork A.bufs A'.bufs
  blocks : A'.blocks = A.blocks
  owns : A'.owns = A.owns
  live : A'.live = A.live
  pairs : A'.pairs = A.pairs
  memStat : A'.env.memStat = A.env.memStat

theorem SweepsAll.frame {A A' : Arena δ} {n : Nat} (h : SweepsAll dev A n A') :
    SweepFrame A A' := by
  induction h with
  | refl => exact ⟨.refl _, rfl, rfl, rfl, rfl, rfl⟩
  | tail _ _ hm ih =>
      obtain ⟨hblocks, hown⟩ := hm.frame
      exact
        { work := ih.work.trans (.sweeps hm)
          blocks := hblocks.trans ih.blocks
          owns := (put_owns_eq hown).trans ih.owns
          live := ih.live
          pairs := ih.pairs
          memStat := (sweeps_memStat hm).trans ih.memStat }

/-- The new buffer of an expansion is free. -/
theorem expand_live_iff {D : Heap BufData} {blk : MemBlock} {B : Nat} {eager : Bool} {r : Nat}
    {d : BufData} (hst : ¬ d.status.isFree) :
    (D.new (.ofBlock blk B eager)).get r = some d ↔ D.get r = some d := by
  rw [Heap.get_new]
  split
  · rename_i hr
    rw [hr, Heap.get_next]
    constructor
    · intro heq
      cases heq
      refine absurd ?_ hst
      cases eager
      · exact .inl rfl
      · exact .inr rfl
    · intro heq
      cases heq
  · exact Iff.rfl

theorem grow_counters (eager : Bool) (size : Nat) (st : MemStat) :
    (Pool.grow eager size st).usedSize = st.usedSize ∧
      (Pool.grow eager size st).peakSize = st.peakSize ∧
      (Pool.grow eager size st).usedByEventSize = st.usedByEventSize ∧
      (Pool.grow eager size st).allocSize = st.allocSize := by
  unfold Pool.grow
  split <;> exact ⟨rfl, rfl, rfl, rfl⟩

theorem Background.calm {A A' : Arena δ} (h : Background dev vmm A A') : Calm A A' := by
  cases h with
  | churn hs h =>
      cases h with
      | split hp hB hfree hn =>
          exact Calm.of_freeWork (.split hp hfree) rfl rfl rfl rfl rfl
      | mapFail hp hB hst hn hcb hk =>
          obtain ⟨d', _, rfl⟩ := Pool.memMapper_eq dev hcb
          exact Calm.of_freeWork (.refl _) rfl rfl rfl rfl rfl
      | expand hcb =>
          rcases Pool.memBlockExpander_cases dev hcb with ⟨hr, _⟩ | ⟨n, sz, ad, d', _, hr⟩
          · cases hr
          · rcases hr with ⟨_, hr, _⟩ | ⟨_, _, _, rfl⟩
            · cases hr
            · obtain ⟨h1, h2, h3, _⟩ := grow_counters (isEager dev _ _) sz A.env.memStat
              exact ⟨fun _ _ hst => expand_live_iff hst, rfl, rfl, h1, h2, h3⟩
      | expandFail hcb =>
          rcases Pool.memBlockExpander_cases dev hcb with ⟨_, rfl⟩ | ⟨n, sz, ad, d', _, hr⟩
          · exact Calm.of_freeWork (.refl _) rfl rfl rfl rfl rfl
          · rcases hr with ⟨_, _, rfl⟩ | ⟨_, _, hr, _⟩
            · obtain ⟨h1, h2, h3, _⟩ := grow_counters (isEager dev _ _) sz A.env.memStat
              exact Calm.of_freeWork (.refl _) rfl rfl h1 h2 h3
            · cases hr
  | sweep h =>
      have hf := h.frame
      have h1 := congrArg MemStat.usedSize hf.memStat
      have h2 := congrArg MemStat.peakSize hf.memStat
      have h3 := congrArg MemStat.usedByEventSize hf.memStat
      exact Calm.of_freeWork hf.work hf.live hf.pairs h1 h2 h3
  | sync h => exact Calm.of_freeWork (.refl _) rfl rfl rfl rfl rfl

theorem Calm.of_path {A A' : Arena δ} (h : ReflTransGen (Background dev vmm) A A') :
    Calm A A' := by
  induction h with
  | refl => exact Calm.refl A
  | tail _ hstep ih => exact ih.trans hstep.calm

/-! ## `Base` -/

/-- The invariant of the arena. -/
structure Base (law : DeviceLaw dev) (vmm : Bool) (b₀ : Nat) (A : Arena δ) : Prop where
  start : b₀ ≤ A.blocks.next
  low : ∀ k B, A.owns k B → b₀ ≤ B
  excl : ∀ k k' B, A.owns k B → A.owns k' B → k = k'
  held : ∀ k B, A.owns k B → ∃ r, A.blocks.get B = some r ∧
    r ∈ law.held (isEager dev vmm k) A.env.device
  bufBelow : ∀ p d, A.bufs.get p = some d → d.memBlock < A.blocks.next
  owned : ∀ p d, A.bufs.get p = some d → b₀ ≤ d.memBlock → ∃ k, A.owns k d.memBlock
  quiet : ∀ p d, A.bufs.get p = some d → b₀ ≤ d.memBlock → d.status.isFree →
    d.isEventNotUsed = true
  live : ∀ a p k, A.live.lookup a = some (p, k) → ∃ d, A.bufs.get p = some d ∧
    d.addr = a ∧ ¬ d.status.isFree ∧ A.owns k d.memBlock

section Base

variable {law : DeviceLaw dev} {b₀ : Nat} {A A' : Arena δ}

theorem Base.freeWork (h : Base law vmm b₀ A) (hD : FreeWork A.bufs A'.bufs)
    (hblocks : A'.blocks = A.blocks) (howns : A'.owns = A.owns) (hlive : A'.live = A.live)
    (hdev : ∀ b, ∀ r ∈ law.held b A.env.device, r ∈ law.held b A'.env.device) :
    Base law vmm b₀ A' where
  start := by rw [hblocks]; exact h.start
  low := by rw [howns]; exact h.low
  excl := by rw [howns]; exact h.excl
  held := fun k B hB => by
    rw [howns] at hB
    obtain ⟨r, hr, hheld⟩ := h.held k B hB
    exact ⟨r, by rw [hblocks, hr], hdev _ r hheld⟩
  bufBelow := fun p d hd => by
    rw [hblocks]
    rcases hD.back p d hd with hd | ⟨_, q, e, he, hB, _⟩
    · exact h.bufBelow p d hd
    · rw [← hB]
      exact h.bufBelow q e he
  owned := fun p d hd hlow => by
    rw [howns]
    rcases hD.back p d hd with hd | ⟨_, q, e, he, hB, _⟩
    · exact h.owned p d hd hlow
    · rw [← hB] at hlow ⊢
      exact h.owned q e he hlow
  quiet := fun p d hd hlow hst => by
    rcases hD.back p d hd with hd | ⟨_, q, e, he, hB, hst', hev⟩
    · exact h.quiet p d hd hlow hst
    · rcases hev with hev | hev
      · exact hev
      · rw [hev]
        exact h.quiet q e he (by rw [hB]; exact hlow) hst'
  live := fun a p k hl => by
    rw [hlive] at hl
    obtain ⟨d, hd, ha, hst, hB⟩ := h.live a p k hl
    exact ⟨d, hD.live p d hd hst, ha, hst, by rw [howns]; exact hB⟩

theorem Base.expand {k : AllocatorKey} {size addr sid : Nat} {env : Env δ} {n : Nat}
    (h : Base law vmm b₀ A) (hsize : size ≠ 0)
    (hdev : dev.allocMem (isEager dev vmm k) n A.env.device = some ((size, addr), env.device)) :
    Base law vmm b₀ (A.put k
      { bufs := A.bufs.new (.ofBlock { size := size, addr := addr, streamId := sid }
          A.blocks.next (isEager dev vmm k))
        blocks := A.blocks.new (addr, size)
        own := fun B => A.owns k B ∨ B = A.blocks.next
        env := env }) := by
  -- a block that is owned was there before, so the new one has a single owner
  have hne : ∀ k' B, A.owns k' B → B ≠ A.blocks.next := fun k' B hB => by
    obtain ⟨r, hr, _⟩ := h.held k' B hB
    exact Heap.ne_next hr
  have howns : ∀ k' B, (Function.update A.owns k
      (fun B => A.owns k B ∨ B = A.blocks.next)) k' B ↔
      A.owns k' B ∨ (k' = k ∧ B = A.blocks.next) := by
    intro k' B
    by_cases hk : k' = k
    · subst hk
      rw [Function.update_self]
      simp
    · rw [Function.update_of_ne hk]
      simp [hk]
  refine ⟨Nat.le_succ_of_le h.start, ?_, ?_, ?_, ?_, ?_, ?_, ?_⟩
  · intro k' B hB
    rcases (howns k' B).mp hB with hB | ⟨_, rfl⟩
    · exact h.low k' B hB
    · exact h.start
  · intro k' k'' B hB hB'
    rcases (howns k' B).mp hB with hB | ⟨rfl, rfl⟩
    · rcases (howns k'' B).mp hB' with hB' | ⟨_, rfl⟩
      · exact h.excl k' k'' B hB hB'
      · exact absurd rfl (hne k' _ hB)
    · rcases (howns k'' _).mp hB' with hB' | ⟨rfl, _⟩
      · exact absurd rfl (hne k'' _ hB')
      · rfl
  · intro k' B hB
    rcases (howns k' B).mp hB with hB | ⟨rfl, rfl⟩
    · obtain ⟨r, hr, hheld⟩ := h.held k' B hB
      -- the device keeps what it held and holds the new region
      refine ⟨r, ?_, law.kept _ _ _ _ _ hdev _ r hheld⟩
      show (A.blocks.new _).get B = _
      rw [Heap.get_new, if_neg (Heap.ne_next hr), hr]
    · exact ⟨(addr, size), Heap.get_new_self _ _, law.given _ _ _ _ _ _ hdev hsize⟩
  · intro p d hd
    show d.memBlock < A.blocks.next + 1
    have hd : (A.bufs.new _).get p = some d := hd
    rw [Heap.get_new] at hd
    split at hd
    · cases hd
      exact Nat.lt_succ_self _
    · exact Nat.lt_succ_of_lt (h.bufBelow p d hd)
  · intro p d hd hlow
    have hd : (A.bufs.new _).get p = some d := hd
    rw [Heap.get_new] at hd
    split at hd
    · cases hd
      exact ⟨k, (howns k _).mpr (.inr ⟨rfl, rfl⟩)⟩
    · obtain ⟨k', hk'⟩ := h.owned p d hd hlow
      exact ⟨k', (howns k' _).mpr (.inl hk')⟩
  · intro p d hd hlow hst
    have hd : (A.bufs.new _).get p = some d := hd
    rw [Heap.get_new] at hd
    split at hd
    · cases hd
      rfl
    · exact h.quiet p d hd hlow hst
  · intro a p k' hl
    obtain ⟨d, hd, ha, hst, hB⟩ := h.live a p k' hl
    exact ⟨d, (expand_live_iff hst).mpr hd, ha, hst, (howns k' _).mpr (.inl hB)⟩

theorem SweepsAll.held {n : Nat} (h : SweepsAll dev A n A') :
    ∀ b, ∀ r ∈ law.held b A.env.device, r ∈ law.held b A'.env.device := by
  induction h with
  | refl => exact fun _ _ h => h
  | tail _ _ hm ih =>
      have hsweep : ∀ {m m' : Core (Env δ)} {n : Nat} {s : Pool δ} {k : AllocatorKey},
          Sweeps (Pool.callbacks dev s k) m n m' →
          ∀ b, ∀ r ∈ law.held b m.env.device, r ∈ law.held b m'.env.device := by
        intro m m' n s k hm
        induction hm with
        | refl => exact fun _ _ h => h
        | convert _ _ _ _ ih => exact ih
        | merge _ _ ih => exact ih
        | unmap _ _ _ _ hcb ih =>
            obtain ⟨d', hd', rfl⟩ := Pool.memEagerFreer_eq dev hcb
            exact fun b r hr => law.eagerFree _ _ _ _ _ hd' b r (ih b r hr)
      exact fun b r hr => hsweep hm b r (ih b r hr)

theorem Base.background (h : Base law vmm b₀ A) (hs : Background dev vmm A A') :
    Base law vmm b₀ A' := by
  cases hs with
  | churn hvmm hc =>
      subst hvmm
      cases hc with
      | split hp hB hfree hn =>
          exact h.freeWork (.split hp hfree) rfl (put_owns_eq rfl) rfl fun _ _ h => h
      | mapFail hp hB hst hn hcb hk =>
          obtain ⟨d', hd', rfl⟩ := Pool.memMapper_eq dev hcb
          exact h.freeWork (.refl _) rfl (put_owns_eq rfl) rfl (law.mmap _ _ _ _ _ hd')
      | expand hcb =>
          rcases Pool.memBlockExpander_cases dev hcb with ⟨hr, _⟩ | ⟨n, sz, ad, d', hd', hr⟩
          · cases hr
          · rcases hr with ⟨_, hr, _⟩ | ⟨hsz, sid, hr, rfl⟩
            · cases hr
            · cases hr
              exact h.expand hsz hd'
      | expandFail hcb =>
          rcases Pool.memBlockExpander_cases dev hcb with ⟨_, rfl⟩ | ⟨n, sz, ad, d', hd', hr⟩
          · exact h.freeWork (.refl _) rfl (put_owns_eq rfl) rfl fun _ _ h => h
          · rcases hr with ⟨_, _, rfl⟩ | ⟨_, _, hr, _⟩
            · exact h.freeWork (.refl _) rfl (put_owns_eq rfl) rfl (law.kept _ _ _ _ _ hd')
            · cases hr
  | sweep hsw =>
      have hf := hsw.frame
      exact h.freeWork hf.work hf.blocks hf.owns hf.live hsw.held
  | sync hd => exact h.freeWork (.refl _) rfl rfl rfl (law.sync _ _ _ hd)

theorem Base.path (h : Base law vmm b₀ A) (hs : ReflTransGen (Background dev vmm) A A') :
    Base law vmm b₀ A' := by
  induction hs with
  | refl => exact h
  | tail _ hstep ih => exact ih.background hstep

/-- A write to one buffer that leaves it in its place. If the buffer is free
afterwards it carries no events and is in the map no longer. -/
theorem Base.write {p : Nat} {d : BufData} {f : BufData → BufData}
    (h : Base law vmm b₀ A) (hp : A.bufs.get p = some d)
    (haddr : (f d).addr = d.addr) (hB : (f d).memBlock = d.memBlock)
    (hquiet : (f d).status.isFree → (f d).isEventNotUsed = true)
    (live : UMap Nat (Nat × AllocatorKey))
    (hlive : ∀ a v, live.lookup a = some v → A.live.lookup a = some v ∧
      ((f d).status.isFree → v.1 ≠ p))
    (env : Env δ)
    (hdev : ∀ b, ∀ r ∈ law.held b A.env.device, r ∈ law.held b env.device) :
    Base law vmm b₀ { A with bufs := A.bufs.modify p f, live := live, env := env } := by
  have hget : ∀ r x, (A.bufs.modify p f).get r = some x →
      (r = p ∧ x = f d) ∨ (r ≠ p ∧ A.bufs.get r = some x) := by
    intro r x hx
    by_cases hr : r = p
    · subst hr
      rw [Heap.get_modify_self, hp] at hx
      cases hx
      exact .inl ⟨rfl, rfl⟩
    · rw [Heap.get_modify_ne _ _ hr] at hx
      exact .inr ⟨hr, hx⟩
  refine ⟨h.start, h.low, h.excl, ?_, ?_, ?_, ?_, ?_⟩
  · intro k B hB
    obtain ⟨r, hr, hheld⟩ := h.held k B hB
    exact ⟨r, hr, hdev _ r hheld⟩
  · intro r x hx
    rcases hget r x hx with ⟨_, rfl⟩ | ⟨_, hx⟩
    · rw [hB]
      exact h.bufBelow p d hp
    · exact h.bufBelow r x hx
  · intro r x hx hlow
    rcases hget r x hx with ⟨_, rfl⟩ | ⟨_, hx⟩
    · rw [hB] at hlow ⊢
      exact h.owned p d hp hlow
    · exact h.owned r x hx hlow
  · intro r x hx hlow hst
    rcases hget r x hx with ⟨_, rfl⟩ | ⟨_, hx⟩
    · exact hquiet hst
    · exact h.quiet r x hx hlow hst
  · intro a r k hl
    obtain ⟨hl, hfree⟩ := hlive a (r, k) hl
    obtain ⟨x, hx, ha, hst, hBx⟩ := h.live a r k hl
    by_cases hr : r = p
    · subst hr
      rw [hp] at hx
      cases hx
      refine ⟨f d, by rw [Heap.get_modify_self, hp]; rfl, haddr.trans ha, ?_, ?_⟩
      · exact fun hf => hfree hf rfl
      · rw [hB]
        exact hBx
    · exact ⟨x, by rw [Heap.get_modify_ne _ _ hr]; exact hx, ha, hst, hBx⟩

/-- Counters are not the business of `Base`. -/
theorem Base.stat (h : Base law vmm b₀ A) (st : MemStat) :
    Base law vmm b₀ { A with env := { A.env with memStat := st } } :=
  h.freeWork (.refl _) rfl rfl rfl fun _ _ h => h

theorem Base.pairs (h : Base law vmm b₀ A) (ps : UMap (Nat × Nat) (List Nat)) :
    Base law vmm b₀ { A with pairs := ps } :=
  h.freeWork (.refl _) rfl rfl rfl fun _ _ h => h

theorem Base.enter {p : Nat} {k : AllocatorKey} {d : BufData} (h : Base law vmm b₀ A)
    (hp : A.bufs.get p = some d) (hst : ¬ d.status.isFree) (hB : A.owns k d.memBlock) :
    Base law vmm b₀ (A.enter d.addr (p, k)) := by
  unfold Arena.enter
  split
  · exact h
  · refine { h with live := fun a r k' hl => ?_ }
    by_cases ha : a = d.addr
    · rw [ha, AList.lookup_insert] at hl
      cases hl
      exact ⟨d, hp, ha.symm, hst, hB⟩
    · rw [AList.lookup_insert_ne ha] at hl
      exact h.live a r k' hl

theorem not_isFree_used : ¬ MemBufStatus.isFree .used := by
  rintro (heq | heq) <;> cases heq

theorem not_isFree_usedByEvent : ¬ MemBufStatus.isFree .usedByEvent := by
  rintro (heq | heq) <;> cases heq

theorem Base.take {size p : Nat} {k : AllocatorKey} {s : Pool δ} {m : Core (Env δ)}
    (h : Base law vmm b₀ A) (ht : Take (Pool.callbacks dev s k) size p (A.core k) m) :
    Base law vmm b₀ (A.put k m) := by
  cases ht with
  | idle hp hB hst hsize =>
      have := h.write (f := fun x => { x with status := .used }) hp rfl rfl
        (fun hf => absurd hf not_isFree_used) A.live
        (fun a v hv => ⟨hv, fun hf => absurd hf not_isFree_used⟩) A.env fun _ _ h => h
      exact this.freeWork (.refl _) rfl (put_owns_eq rfl) rfl fun _ _ h => h
  | eager hp hB hst hsize hcb =>
      obtain ⟨d', hd', rfl⟩ := Pool.memMapper_eq dev hcb
      have := h.write (f := fun x => { x with status := .used }) hp rfl rfl
        (fun hf => absurd hf not_isFree_used) A.live
        (fun a v hv => ⟨hv, fun hf => absurd hf not_isFree_used⟩) A.env fun _ _ h => h
      exact this.freeWork (.refl _) rfl (put_owns_eq rfl) rfl (law.mmap _ _ _ _ _ hd')

/-- What a taken buffer looks like. -/
theorem take_get {size p : Nat} {k : AllocatorKey} {s : Pool δ} {m : Core (Env δ)}
    (ht : Take (Pool.callbacks dev s k) size p (A.core k) m) :
    ∃ d, A.bufs.get p = some d ∧ d.status.isFree ∧ A.owns k d.memBlock ∧ size ≤ d.size ∧
      m.bufs = A.bufs.modify p (fun x => { x with status := .used }) ∧
      m.blocks = A.blocks ∧ m.own = A.owns k := by
  cases ht with
  | idle hp hB hst hsize => exact ⟨_, hp, .inl hst, hB, hsize, rfl, rfl, rfl⟩
  | eager hp hB hst hsize hcb => exact ⟨_, hp, .inr hst, hB, hsize, rfl, rfl, rfl⟩

theorem Base.hand {size p : Nat} {k : AllocatorKey} (h : Base law vmm b₀ A)
    (hh : Hand dev size p k A A') : Base law vmm b₀ A' := by
  cases hh with
  | mk ht hd =>
      obtain ⟨d₀, hp, hst, hB, hsize, hm, _, hown⟩ := take_get ht
      rw [hm, Heap.get_modify_self, hp] at hd
      cases hd
      refine Base.enter ((h.take ht).stat _) ?_ not_isFree_used ?_
      · show Heap.get _ p = _
        rw [show ((A.put k _).countUsed _).bufs = _ from hm, Heap.get_modify_self, hp]
        rfl
      · show (A.put k _).owns k _
        rw [put_owns_eq hown]
        exact hB

theorem Base.release {addr : Nat} (h : Base law vmm b₀ A) (hr : Release addr A A') :
    Base law vmm b₀ A' := by
  cases hr with
  | @mk p k d D hlive hp hquiet hD =>
      have hw := h.write (f := fun x => { x with status := .idle }) hp rfl rfl
        (fun _ => hquiet) (A.live.erase addr)
        (fun a v hv => by
          by_cases ha : a = addr
          · rw [ha, AList.lookup_erase] at hv
            cases hv
          · rw [AList.lookup_erase_ne ha] at hv
            refine ⟨hv, fun _ heq => ha ?_⟩
            obtain ⟨v₁, k'⟩ := v
            cases heq
            obtain ⟨d₁, hd₁, ha₁, _⟩ := h.live _ _ _ hv
            obtain ⟨d₂, hd₂, ha₂, _⟩ := h.live _ _ _ hlive
            rw [hp] at hd₁ hd₂
            cases hd₁
            cases hd₂
            exact ha₁.symm.trans ha₂)
        { A.env with memStat := { A.env.memStat with
            usedSize := subSize A.env.memStat.usedSize d.size } } fun _ _ h => h
      exact hw.freeWork (.merges hD) rfl rfl rfl fun _ _ h => h

theorem Base.retain {addr : Nat} (h : Base law vmm b₀ A) (hr : Retain addr A A') :
    Base law vmm b₀ A' := by
  cases hr with
  | mk hlive hp hused =>
      exact h.write (f := fun x => { x with status := .usedByEvent }) hp rfl rfl
        (fun hf => absurd hf not_isFree_usedByEvent) A.live
        (fun a v hv => ⟨hv, fun hf => absurd hf not_isFree_usedByEvent⟩) A.env fun _ _ h => h

end Base

end Arena

end Ccbase.Memory
