import Ccbase.Memory.Coalesced
import Ccbase.Memory.UsedSize

/-!
# What `FreePartTensorMems` leaves behind

Where no events are recorded, every piece that the call frees is idle afterwards. The ranges to
keep are in the address map with exactly their sizes, every other byte of the buffers is idle, and
nothing else has changed.
-/

namespace Ccbase.Memory

open Ccbase.Lib Relation

variable {δ : Type} {dev : Device δ}

/-- The byte `z` is in an idle buffer. -/
def IdleAt (D : Heap BufData) (z : Nat) : Prop :=
  ∃ q d, D.get q = some d ∧ d.status = .idle ∧ d.addr ≤ z ∧ z < d.addr + d.size

theorem IdleAt.merge {own : Nat → Prop} {D D' : Heap BufData} {z : Nat} (h : IdleAt D z)
    (hm : Merge own D D') : IdleAt D' z := by
  obtain ⟨r, x, hr, hst, h1, h2⟩ := h
  cases hm with
  | @mk p q a d e hp hq hne hB hBq hfree hsame hquiet hadj =>
      have hget : ((D.modify p fun x => { x with addr := a, size := x.size + e.size }).delete q).get
          p = some { d with addr := a, size := d.size + e.size } := by
        rw [Heap.get_delete_ne _ hne, Heap.get_modify_self, hp]
        rfl
      by_cases hrq : r = q
      · -- the byte goes over to `p`
        subst hrq
        rw [hq] at hr
        cases hr
        refine ⟨p, _, hget, hsame.symm.trans hst, ?_⟩
        dsimp only
        omega
      · by_cases hrp : r = p
        · subst hrp
          rw [hp] at hr
          cases hr
          refine ⟨r, _, hget, hst, ?_⟩
          dsimp only
          omega
        · refine ⟨r, x, ?_, hst, h1, h2⟩
          rw [Heap.get_delete_ne _ hrq, Heap.get_modify_ne _ _ hrp]
          exact hr

theorem IdleAt.merges {own : Nat → Prop} {D D' : Heap BufData} {z : Nat} (h : IdleAt D z)
    (hm : ReflTransGen (Merge own) D D') : IdleAt D' z := by
  induction hm with
  | refl => exact h
  | tail _ hstep ih => exact ih.merge hstep

namespace Arena

variable {law : DeviceLaw dev} {vmm : Bool} {A A' : Arena δ}

/-! ## No buffer has an event -/

def Hushed (A : Arena δ) : Prop := ∀ p d, A.bufs.get p = some d → d.isEventNotUsed = true

theorem Hushed.calm (h : Hushed A) (hb : Base law vmm 0 A') (hc : Calm A A') : Hushed A' := by
  intro p d hp
  by_cases hst : d.status.isFree
  · exact hb.quiet p d hp (Nat.zero_le _) hst
  · exact h p d ((hc.live_iff p d hst).mp hp)

theorem Hushed.hand {size p : Nat} {k : AllocatorKey} {d₀ : BufData} (h : Hushed A)
    (hf : HandFrame size p k d₀ A A') : Hushed A' := by
  intro q d hq
  rcases hf.get_back hq with ⟨-, rfl⟩ | ⟨-, hq⟩
  · exact h p d₀ hf.free.1
  · exact h q d hq

theorem Hushed.free {addr : Nat} {ok : Bool} (h : Hushed A) (hb : Base law vmm 0 A)
    (hf : FreeStep addr A ok A') : Hushed A' := by
  intro p d hp
  by_cases hst : d.status.isFree
  · exact (hb.free hf).quiet p d hp (Nat.zero_le _) hst
  · obtain ⟨e, he, -, heq⟩ := (hf.frame hb).back p d hp hst
    rw [heq]
    exact h p e he

theorem Hushed.cuts (h : Hushed A) (hc : ReflTransGen CutStep A A') : Hushed A' := by
  induction hc with
  | refl => exact h
  | tail _ hstep ih =>
      obtain ⟨p, n, rest, -, -, hcut⟩ := hstep
      obtain ⟨k, d, hf⟩ := hcut.frame
      intro q e he
      rcases hf.cases he with ⟨-, rfl⟩ | ⟨-, rfl⟩ | ⟨-, -, he⟩
      · exact ih p d hf.get
      · exact hf.rest_quiet
      · exact ih q e he

theorem Hushed.freeAll {es : List (Nat × (Nat × AllocatorKey))} (h : Hushed A)
    (hb : Base law vmm 0 A) (hf : Pool.FreeAll es A A') : Hushed A' := by
  induction hf with
  | nil => exact h
  | cons hone _ ih =>
      obtain ⟨ok, hone⟩ := hone
      exact ih (h.free hb hone) (hb.free hone)

/-! ## The pieces that are freed -/

/-- Nothing is retained for an event. -/
theorem Hushed.release {addr p : Nat} {k : AllocatorKey} {ok : Bool} (h : Hushed A)
    (hl : A.live.lookup addr = some (p, k)) (hf : FreeStep addr A ok A') : Release addr A A' := by
  cases hf with
  | absent hnone =>
      rw [hl] at hnone
      cases hnone
  | release hr => exact hr
  | retain hr =>
      cases hr with
      | mk hlive hp hused =>
          rw [h _ _ hp] at hused
          cases hused

/-- What becomes of the address map and of the idle bytes. -/
structure PieceFreed (addr m : Nat) (A A' : Arena δ) : Prop where
  gone : A'.live.lookup addr = none
  lookup : ∀ a, a ≠ addr → A'.live.lookup a = A.live.lookup a
  sizeAt : ∀ a, a ≠ addr → A'.sizeAt a = A.sizeAt a
  idle : ∀ z, IdleAt A.bufs z ∨ (addr ≤ z ∧ z < addr + m) → IdleAt A'.bufs z

theorem Release.pieceFreed {addr m : Nat} (hb : Base law vmm 0 A) (hr : Release addr A A')
    (hm : A.sizeAt addr = some m) : PieceFreed addr m A A' := by
  have hframe := (FreeStep.release hr).frame hb
  have hsize : ∀ a, a ≠ addr → A'.sizeAt a = A.sizeAt a := by
    intro a hne
    unfold Arena.sizeAt
    rw [hframe.lookup a hne]
    cases hv : A.live.lookup a with
    | none => rfl
    | some v =>
        obtain ⟨q, k⟩ := v
        obtain ⟨e, he, hea, hst, -⟩ := hb.live a q k hv
        have hkept := hframe.kept q e he hst (by rw [hea]; exact hne)
        rw [Option.bind_some, Option.bind_some]
        dsimp only
        rw [hkept, he]
  cases hr with
  | @mk p k d D hl hp hquiet hD =>
      refine ⟨AList.lookup_erase _ _, hframe.lookup, hsize, fun z hz => ?_⟩
      obtain ⟨d', hd', ha, hst, -⟩ := hb.live _ _ _ hl
      rw [hp] at hd'
      cases hd'
      rw [sizeAt_of_lookup hl hp] at hm
      cases hm
      have hidle : IdleAt (A.bufs.modify p fun x => { x with status := .idle }) z := by
        rcases hz with ⟨q, e, hq, hidle, h1, h2⟩ | ⟨h1, h2⟩
        · have hqp : q ≠ p := fun heq => by
            rw [heq, hp] at hq
            cases hq
            exact hst (.inl hidle)
          exact ⟨q, e, by rw [Heap.get_modify_ne _ _ hqp]; exact hq, hidle, h1, h2⟩
        · refine ⟨p, { d with status := .idle }, ?_, rfl, ?_⟩
          · rw [Heap.get_modify_self, hp]
            rfl
          · dsimp only
            omega
      exact hidle.merges hD

/-- The pieces `es` of the map have been freed. -/
structure FreeAllFrame (es : List (Nat × (Nat × AllocatorKey))) (A A' : Arena δ) : Prop where
  gone : ∀ e ∈ es, A'.live.lookup e.1 = none
  lookup : ∀ a, a ∉ es.map Prod.fst → A'.live.lookup a = A.live.lookup a
  sizeAt : ∀ a, a ∉ es.map Prod.fst → A'.sizeAt a = A.sizeAt a
  stays : ∀ z, IdleAt A.bufs z → IdleAt A'.bufs z
  idle : ∀ e ∈ es, ∀ m, A.sizeAt e.1 = some m → ∀ z, e.1 ≤ z → z < e.1 + m → IdleAt A'.bufs z

theorem freeAll_frame {es : List (Nat × (Nat × AllocatorKey))} (hb : Base law vmm 0 A)
    (hh : Hushed A) (hnd : (es.map Prod.fst).Nodup)
    (hlook : ∀ e ∈ es, A.live.lookup e.1 = some e.2) (hf : Pool.FreeAll es A A') :
    FreeAllFrame es A A' := by
  induction hf with
  | nil => exact ⟨nofun, fun _ _ => rfl, fun _ _ => rfl, fun _ hz => hz, nofun⟩
  | @cons e es A A₁ A' hone hrest ih =>
      obtain ⟨ok, hone⟩ := hone
      obtain ⟨hne, hnd⟩ := List.nodup_cons.mp hnd
      have hl := hlook e (List.mem_cons_self ..)
      obtain ⟨m, hm⟩ := hb.sizeAt_isSome hl
      have hr := (hh.release hl hone).pieceFreed hb hm
      have hother : ∀ e' ∈ es, e'.1 ≠ e.1 := fun e' he' heq => hne (by
        rw [← heq]
        exact List.mem_map.mpr ⟨e', he', rfl⟩)
      have hfr := ih (hb.free hone) (hh.free hb hone) hnd fun e' he' => by
        rw [hr.lookup _ (hother e' he')]
        exact hlook e' (List.mem_cons_of_mem _ he')
      refine ⟨fun e' he' => ?_, fun a ha => ?_, fun a ha => ?_, fun z hz => ?_, ?_⟩
      · rcases List.mem_cons.mp he' with rfl | he'
        · rw [hfr.lookup _ hne]
          exact hr.gone
        · exact hfr.gone e' he'
      · obtain ⟨hae, has⟩ := not_or.mp (fun hor => ha (List.mem_cons.mpr hor))
        rw [hfr.lookup a has, hr.lookup a hae]
      · obtain ⟨hae, has⟩ := not_or.mp (fun hor => ha (List.mem_cons.mpr hor))
        rw [hfr.sizeAt a has, hr.sizeAt a hae]
      · exact hfr.stays z (hr.idle z (.inl hz))
      · intro e' he' m' hm' z h1 h2
        rcases List.mem_cons.mp he' with rfl | he'
        · rw [hm] at hm'
          cases hm'
          exact hfr.stays z (hr.idle z (.inr ⟨h1, h2⟩))
        · exact hfr.idle e' he' m' (by rw [hr.sizeAt _ (hother e' he')]; exact hm') z h1 h2

end Arena

namespace Pool

variable {law : DeviceLaw dev} {s s' : Pool δ} {m : Nat} {freeAddrs : List Nat}
  {keeps : List (Nat × Nat)}

/-- What a caller of `FreePartTensorMems` gets. -/
structure PartFreeSpec (s : Pool δ) (freeAddrs : List Nat) (keeps : List (Nat × Nat))
    (memBufs : List Nat) (s' : Pool δ) : Prop where
  kept : ∀ x n, (x, n) ∈ keeps → s'.arena.sizeAt x = some n
  freed : ∀ a ∈ freeAddrs, a ∉ keeps.map Prod.fst → s'.arena.sizeAt a = none
  others : ∀ a, a ∉ freeAddrs → a ∉ keeps.map Prod.fst → s'.arena.sizeAt a = s.arena.sizeAt a
  idle : ∀ a ∈ freeAddrs, ∀ m, s.arena.sizeAt a = some m → ∀ z, a ≤ z → z < a + m →
    (∀ x n, (x, n) ∈ keeps → ¬ (x ≤ z ∧ z < x + n)) → IdleAt s'.arena.bufs z
  stays : ∀ z, IdleAt s.arena.bufs z → IdleAt s'.arena.bufs z
  memBufs : ∃ xs, xs.Nodup ∧ (∀ x, x ∈ xs ↔ x ∈ keeps.map Prod.fst) ∧
    List.Forall₂ (fun p x => ∃ k, s'.addrMemBufAllocators.lookup x = some (p, k)) memBufs xs
  inOrder : ∀ k al, s'.allocator? k = some al → InOrder s' al

theorem sizeAt_of_absent {a : Nat} (h : s.addrMemBufAllocators.lookup a = none) :
    s.arena.sizeAt a = none := by
  show (s.addrMemBufAllocators.lookup a).bind _ = none
  rw [h]
  rfl

/-- A cut leaves the idle buffers alone. -/
theorem idleAt_of_cuts {A A' : Arena δ} {z : Nat} {law : DeviceLaw dev} {vmm : Bool}
    (hb : Arena.Base law vmm 0 A) (hc : ReflTransGen Arena.CutStep A A') (hz : IdleAt A.bufs z) :
    IdleAt A'.bufs z := by
  have hall : Arena.Base law vmm 0 A' ∧ IdleAt A'.bufs z := by
    induction hc with
    | refl => exact ⟨hb, hz⟩
    | tail _ hstep ih =>
        obtain ⟨p, n, rest, -, -, hcut⟩ := hstep
        obtain ⟨hb₁, q, e, hq, hidle, h1, h2⟩ := ih
        obtain ⟨k, d, hf⟩ := hcut.frame
        obtain ⟨d', hd', -, hst, -⟩ := hb₁.live _ _ _ hf.live
        rw [hf.get] at hd'
        cases hd'
        have hqp : q ≠ p := fun heq => by
          rw [heq, hf.get] at hq
          cases hq
          exact hst (.inl hidle)
        refine ⟨hb₁.cut hcut, q, e, ?_, hidle, h1, h2⟩
        rw [hf.others q hqp (Heap.ne_next hq)]
        exact hq
  exact hall.2

/-- The invariant of the runs below. -/
structure PartInv (law : DeviceLaw dev) (m : Nat) (s : Pool δ) : Prop where
  used : UsedInv law m s
  tight : Tight law s
  hushed : s.arena.Hushed

theorem PartInv.partFreeSpec {keepAddrs keepAddrSizes : List Nat} (h : PartInv law m s)
    (hfit : KeepsFit s freeAddrs (keepAddrs.zip keepAddrSizes)) :
    PartFreeSpec s freeAddrs (keepAddrs.zip keepAddrSizes)
      (doFreePartTensorMems freeAddrs keepAddrs keepAddrSizes s).1
      (freePartTensorMems freeAddrs keepAddrs keepAddrSizes s) := by
  have htight := h.tight.freePart hfit
  obtain ⟨st, hpart, hmem⟩ := h.tight.toPlaced.partFreed hfit
  rw [hmem]
  have hcarving := hpart.carving
  have hbase := hcarving.cuts.placed.inv.base
  have hmapped := ((Arena.Shrinks.refl h.used.count.inv.base h.used.count.counted
    h.used.mapped).cuts hcarving.cuts.arena).mapped
  have hentries : ∀ a v, (a, v) ∈ st.candidates.entries ↔ st.candidates.find? a = some v :=
    fun a v => OrdMap.find?_eq_some_iff.symm
  have hkeys : ∀ a, a ∈ st.candidates.entries.map Prod.fst ↔ st.candidates.find? a ≠ none := by
    intro a
    constructor
    · intro ha
      obtain ⟨⟨a', v⟩, he, rfl⟩ := List.mem_map.mp ha
      rw [(hentries a' v).mp he]
      exact Option.some_ne_none v
    · intro ha
      obtain ⟨v, hv⟩ := Option.ne_none_iff_exists'.mp ha
      exact List.mem_map.mpr ⟨(a, v), (hentries a v).mpr hv, rfl⟩
  have hnd : (st.candidates.entries.map Prod.fst).Nodup := by
    rw [List.Nodup, List.pairwise_map]
    exact st.candidates.sorted.imp fun h => ne_of_lt h
  -- what is freed are the candidates that the ranges have left
  have hfr := Arena.freeAll_frame hbase (h.hushed.cuts hcarving.cuts.arena) hnd
    (fun e he => hcarving.cand e.1 e.2 ((hentries e.1 e.2).mp he)) hpart.freed
  have hproc : ∀ x n, (x, n) ∈ keepAddrs.zip keepAddrSizes → x ∈ st.processed := fun x n hx =>
    (hpart.processed x).mpr (List.mem_map.mpr ⟨(x, n), hx, rfl⟩)
  have hout : ∀ x, x ∈ st.processed → x ∉ st.candidates.entries.map Prod.fst := by
    intro x hx hin
    obtain ⟨n, -, -, hnone⟩ := hcarving.kept x hx
    exact (hkeys x).mp hin hnone
  refine ⟨fun x n hx => ?_, fun a ha hak => ?_, fun a ha hak => ?_, ?_, fun z hz => ?_, ?_,
    fun k al hal => htight.inOrder hal⟩
  · obtain ⟨n', hx', hsize, -⟩ := hcarving.kept x (hproc x n hx)
    rw [hfr.sizeAt x (hout x (hproc x n hx)), hsize]
    -- one address has one range: two that are not equal are apart
    by_contra hne
    have hap := hfit.apart x n x n' hx hx' fun heq => hne (by cases heq; rfl)
    have h1 := hfit.pos x n hx
    have h2 := hfit.pos x n' hx'
    omega
  · have hak : a ∉ st.processed := fun hin => hak ((hpart.processed a).mp hin)
    by_cases hc : st.candidates.find? a = none
    · obtain ⟨hlook, -, hnone⟩ := hcarving.rest a hc hak
      rw [hfr.sizeAt a fun hin => (hkeys a).mp hin hc]
      exact sizeAt_of_absent (hlook.trans (hnone ha))
    · obtain ⟨v, hv⟩ := Option.ne_none_iff_exists'.mp hc
      exact sizeAt_of_absent (hfr.gone (a, v) ((hentries a v).mpr hv))
  · have hak : a ∉ st.processed := fun hin => hak ((hpart.processed a).mp hin)
    by_cases hc : st.candidates.find? a = none
    · rw [hfr.sizeAt a fun hin => (hkeys a).mp hin hc]
      exact (hcarving.rest a hc hak).2.1
    · -- a piece that has been cut off inside a buffer
      obtain ⟨v, hv⟩ := Option.ne_none_iff_exists'.mp hc
      rw [sizeAt_of_absent (hfr.gone (a, v) ((hentries a v).mpr hv))]
      obtain ⟨l, hl⟩ := hbase.sizeAt_isSome (hcarving.cand a v hv)
      obtain ⟨p, k, d, -, hd, -, hdl⟩ := hbase.of_sizeAt hl
      have hpos : 0 < l := by
        obtain ⟨d', hd', -, hst, -⟩ := hbase.live a v.1 v.2 (hcarving.cand a v hv)
        have hl' := Arena.sizeAt_of_lookup (A := st.pool.arena) (hcarving.cand a v hv) hd'
        rw [hl] at hl'
        cases hl'
        exact hmapped.pos v.1 d' hd' hst
      obtain ⟨a₀, ha₀, m₀, hm₀, h1, h2⟩ := hcarving.inside a v l hv hl
      obtain ⟨p₀, k₀, d₀, -, hd₀, hda, hdm⟩ := h.used.count.inv.base.of_sizeAt hm₀
      obtain ⟨b₀, hb₀, rfl⟩ := dataOf_get_some hd₀
      have hda : b₀.addr = a₀ := hda
      have hdm : b₀.size = m₀ := hdm
      have hne : a ≠ a₀ := fun heq => ha (heq ▸ ha₀)
      exact (sizeAt_of_absent (h.tight.toPlaced.fresh_inside hb₀ (by omega) (by omega))).symm
  · intro a ha l hl z h1 h2 hz
    rcases hcarving.cover a ha l hl z h1 h2 with
      ⟨a', v, l', hv, hl', h3, h4⟩ | ⟨x, n, hx, -, h3, h4⟩
    · exact hfr.idle (a', v) ((hentries a' v).mpr hv) l' hl' z h3 h4
    · exact absurd ⟨h3, h4⟩ (hz x n hx)
  · exact hfr.stays z (idleAt_of_cuts h.used.count.inv.base hcarving.cuts.arena hz)
  · refine ⟨st.processed.reverse, List.nodup_reverse.mpr hpart.nodup, fun x => ?_, ?_⟩
    · rw [List.mem_reverse]
      exact hpart.processed x
    · refine hcarving.memBufs.imp fun p x hx => ?_
      obtain ⟨hxp, k, hl⟩ := hx
      exact ⟨k, (hfr.lookup x (hout x hxp)).trans hl⟩

/-! ## Runs -/

theorem PartInv.init (law : DeviceLaw dev) (enableVmm enableTiny : Bool) (d : δ) :
    PartInv law 0 (Pool.init enableVmm enableTiny d) :=
  ⟨UsedInv.init law enableVmm enableTiny d, Tight.init law enableVmm enableTiny d,
    fun _ _ hp => (by cases hp)⟩

theorem quietCall.fitting {c : Call} (h : quietCall s c) : fittingCall s c := by
  cases c with
  | freePart _ _ _ => exact h
  | _ => trivial

theorem PartInv.hushed_step {c : Call} (h : PartInv law m s) (hc : quietCall s c)
    (hs : Step dev s c s') : s'.arena.Hushed := by
  have hinv := h.used.count.inv
  cases c with
  | alloc size b n addr =>
      have hd := allocTensorMem_spec hinv (.inr h.used.count.noEvents) hs
      rcases hd.step.noEvents h.used.count.noEvents with ⟨-, hpath⟩ | ⟨p, k, A, d, hpath, hh, -, -⟩
      · exact h.hushed.calm hd.inv.base (Arena.Calm.of_path hpath)
      · obtain ⟨d₀, hf⟩ := hh.frame
        exact (h.hushed.calm (hinv.base.path hpath) (Arena.Calm.of_path hpath)).hand hf
  | free addr =>
      cases hs
      obtain ⟨ok, hstep⟩ := (freeTensorMem_spec hinv addr).step
      exact h.hushed.free hinv.base hstep
  | freePart freeAddrs keepAddrs keepAddrSizes =>
      cases hs
      obtain ⟨st, hpart, -⟩ := h.tight.toPlaced.partFreed hc
      exact (h.hushed.cuts hpart.carving.cuts.arena).freeAll
        hpart.carving.cuts.placed.inv.base hpart.freed
  | defrag =>
      have hq := defragMemory_spec hinv hs
      exact h.hushed.calm hq.inv.base (Arena.Calm.of_path hq.path)
  | record _ _ _ _ => exact hc.elim
  | wait _ _ _ => exact hc.elim
  | waitMem _ _ _ => exact hc.elim
  | syncAllEvents => exact hc.elim

theorem PartInv.step (hdis : law.Disjoint) (hbd : dev.Bounded) (h : PartInv law m s) {c : Call}
    (hc : quietCall s c) (hal : alignsUp c) (hs : Step dev s c s') :
    PartInv law (max m s'.memStat.usedSize) s' :=
  ⟨h.used.step hdis hbd hc hal hs, h.tight.step hdis hbd hc.fitting hs, h.hushed_step hc hs⟩

theorem PartInv.run (hdis : law.Disjoint) (hbd : dev.Bounded) {enableVmm enableTiny : Bool} {d : δ}
    {calls : List Call}
    (hrun : Run (fun x c x' => CountedStep dev x c x' ∧ alignsUp c)
      (Pool.init enableVmm enableTiny d, 0) calls (s, m)) : PartInv law m s :=
  hrun.state_inv (I := fun x => PartInv law x.2 x.1)
    (PartInv.init law enableVmm enableTiny d) fun x c x' hI hs => by
      rw [hs.1.2.1]
      exact hI.step hdis hbd hs.1.2.2 hs.2 hs.1.1

/-- After every run of quiet calls whose requests do not wrap around, `FreePartTensorMems` with
ranges that fit leaves exactly these ranges of the buffers in use, makes every other byte of them
idle, merges idle neighbours, changes no other buffer in use, and returns one buffer for each
address to keep. -/
theorem freePart_keeps_ranges (law : DeviceLaw dev) (hdis : law.Disjoint) (hbd : dev.Bounded)
    {enableVmm enableTiny : Bool} {d : δ} {calls : List Call} {keepAddrs keepAddrSizes : List Nat}
    (hrun : Run (fun x c x' => CountedStep dev x c x' ∧ alignsUp c)
      (Pool.init enableVmm enableTiny d, 0) calls (s, m))
    (hfit : KeepsFit s freeAddrs (keepAddrs.zip keepAddrSizes)) :
    PartFreeSpec s freeAddrs (keepAddrs.zip keepAddrSizes)
      (doFreePartTensorMems freeAddrs keepAddrs keepAddrSizes s).1
      (freePartTensorMems freeAddrs keepAddrs keepAddrSizes s) :=
  (PartInv.run hdis hbd hrun).partFreeSpec hfit

/-- Two ranges of one buffer are kept, the second of them named twice; an address that is not in
use is freed too. -/
theorem freePart_keeps_ranges_two :
    ∃ calls s m, Run (fun x c x' => CountedStep (linearDevice false false) x c x' ∧ alignsUp c)
        (Pool.init false false (LinearState.init 0), 0) calls (s, m) ∧
      PartFreeSpec s [512, 7] [(1000, 24), (600, 100), (1000, 24)]
        (doFreePartTensorMems [512, 7] [1000, 600, 1000] [24, 100, 24] s).1
        (freePartTensorMems [512, 7] [1000, 600, 1000] [24, 100, 24] s) := by
  have hexec : ((execOne (linearDevice false false) (Pool.init false false (LinearState.init 0))
      (.alloc 1000 false 0 512)).bind fun s =>
        (execOne (linearDevice false false) s (.alloc 600 false 0 1536)).map fun s =>
          s.arena.sizeAt 512) = some (some 1024) := by
    decide +kernel
  obtain ⟨s₁, h₁, hrest⟩ := Option.bind_eq_some_iff.mp hexec
  obtain ⟨s₂, h₂, hsize⟩ := Option.map_eq_some_iff.mp hrest
  have hkeep : ∀ x n, (x, n) ∈ [(1000, 24), (600, 100), (1000, 24)] →
      (x = 1000 ∧ n = 24) ∨ (x = 600 ∧ n = 100) := by
    intro x n hx
    simp only [List.mem_cons, Prod.mk.injEq, List.not_mem_nil, or_false] at hx
    omega
  have hfit : KeepsFit s₂ [512, 7] ([1000, 600, 1000].zip [24, 100, 24]) := by
    refine ⟨fun x n hx => ?_, fun x n y l hx hy hne => ?_, fun x n hx => ?_⟩
    · rcases hkeep x n hx with ⟨rfl, rfl⟩ | ⟨rfl, rfl⟩ <;> decide
    · rcases hkeep x n hx with ⟨rfl, rfl⟩ | ⟨rfl, rfl⟩ <;>
        rcases hkeep y l hy with ⟨rfl, rfl⟩ | ⟨rfl, rfl⟩
      · exact absurd rfl hne
      · exact .inr (by decide)
      · exact .inl (by decide)
      · exact absurd rfl hne
    · rcases hkeep x n hx with ⟨rfl, rfl⟩ | ⟨rfl, rfl⟩ <;>
        exact ⟨512, by decide, 1024, hsize, by decide, by decide⟩
  have hrun₁ : Run (fun x c x' => CountedStep (linearDevice false false) x c x' ∧ alignsUp c)
      (Pool.init false false (LinearState.init 0), 0) [] _ := .nil
  have hrun₂ := hrun₁.snoc
    ⟨countedStep_of_execOne h₁ trivial, (by decide : 1000 + 512 ≤ 2 ^ 64)⟩
  have hrun := hrun₂.snoc
    ⟨countedStep_of_execOne h₂ trivial, (by decide : 600 + 512 ≤ 2 ^ 64)⟩
  exact ⟨_, s₂, _, hrun, freePart_keeps_ranges (linearLaw false false)
    (linearLaw_disjoint false false) (linearDevice_bounded false false) hrun hfit⟩

end Pool

end Ccbase.Memory
