import Ccbase.Lib.OrdMap
import Mathlib.Data.List.Induction
import Mathlib.Data.List.Infix
import Mathlib.Data.List.Nodup
import Mathlib.Tactic.Common

/-!
# The replay of a memory trace

`main` replays a trace of memory blocks. Each line allocates its block and puts the
address into a map, under the end time stamp of the block; then all entries whose
time stamp is before the start of the line are freed. A block does not get into the
map if another one with its end time stamp is there.

Each block is followed by the number of its line: the addresses of a pool can be
used again.
-/

namespace Ccbase.Memory

open Ccbase.Lib

/-! ## The model -/

/-- The fields that the replay reads. -/
structure MemoryBlock where
  startTimeStamp : Nat
  endTimeStamp : Nat
  size : Nat
  type : String := ""
  deriving DecidableEq, Repr

def MemoryBlock.isPersistent (b : MemoryBlock) : Bool :=
  b.type = "ConstantValue" ∨ b.type = "Weight"

/-- The two functions of the pool. -/
structure TensorPool (σ α : Type) where
  allocTensorMem : Nat → Bool → σ → α × σ
  freeTensorMem : α → σ → σ

/-- `addrs` are the addresses of the blocks by line and `freed` the calls of
`FreeTensorMem`; an address comes with the line of its block. -/
structure Replay (σ α : Type) where
  pool : σ
  toFreeMap : OrdMap Nat (Nat × α) := .empty
  addrs : List α := []
  freed : List (Nat × α) := []

namespace Replay

variable {σ α : Type}

/-- The loop over `to_free_map`. -/
def scan (p : TensorPool σ α) (start : Nat) : List (Nat × (Nat × α)) → Replay σ α → Replay σ α
  | [], s => s
  | e :: es, s =>
      if e.1 < start then
        scan p start es
          { s with
            pool := p.freeTensorMem e.2.2 s.pool
            toFreeMap := s.toFreeMap.erase e.1
            freed := s.freed ++ [e.2] }
      else scan p start es s

/-- A line of the trace. -/
def line (p : TensorPool σ α) (s : Replay σ α) (block : MemoryBlock) : Replay σ α :=
  let (addr, pool) := p.allocTensorMem block.size block.isPersistent s.pool
  let toFreeMap := s.toFreeMap.emplace block.endTimeStamp (s.addrs.length, addr)
  scan p block.startTimeStamp toFreeMap.entries
    { s with pool := pool, toFreeMap := toFreeMap, addrs := s.addrs ++ [addr] }

def replay (p : TensorPool σ α) (pool : σ) (blocks : List MemoryBlock) : Replay σ α :=
  blocks.foldl (line p) { pool := pool }

end Replay

/-- A trace: lines in the order of their start, and no block that ends before it
starts. -/
structure IsTrace (blocks : List MemoryBlock) : Prop where
  sorted : blocks.Pairwise fun b c => b.startTimeStamp ≤ c.startTimeStamp
  ordered : ∀ b ∈ blocks, b.startTimeStamp ≤ b.endTimeStamp

/-- A later line starts after the end of block `j`. -/
def Due (blocks : List MemoryBlock) (j : Nat) : Prop :=
  ∃ b k c, blocks[j]? = some b ∧ j < k ∧ blocks[k]? = some c ∧
    b.endTimeStamp < c.startTimeStamp

/-- The addresses of the blocks that are due have been freed once, and no others. -/
structure FreedRight {σ α : Type} (blocks : List MemoryBlock) (s : Replay σ α) : Prop where
  once : ∀ j, Due blocks j → (s.freed.map Prod.fst).count j = 1
  never : ∀ j, ¬ Due blocks j → (s.freed.map Prod.fst).count j = 0
  addr : ∀ e ∈ s.freed, s.addrs[e.1]? = some e.2

/-- No block that is due ends with a block of an earlier line. -/
def NoClash (blocks : List MemoryBlock) : Prop :=
  ∀ j, Due blocks j → ∀ i, i < j →
    blocks[i]?.map MemoryBlock.endTimeStamp ≠ blocks[j]?.map MemoryBlock.endTimeStamp

namespace Replay

variable {σ α : Type} {blocks : List MemoryBlock} {block : MemoryBlock} {s : Replay σ α}
  {p : TensorPool σ α} {pool : σ}

/-! ## The scan -/

theorem addrs_scan (start : Nat) : ∀ (es : List (Nat × (Nat × α))) (s : Replay σ α),
    (scan p start es s).addrs = s.addrs := by
  intro es
  induction es with
  | nil => exact fun s => rfl
  | cons e es ih =>
      intro s
      rw [scan]
      split
      · exact ih _
      · exact ih _

theorem freed_scan (start : Nat) : ∀ (es : List (Nat × (Nat × α))) (s : Replay σ α),
    (scan p start es s).freed =
      s.freed ++ (es.filter fun e => decide (e.1 < start)).map Prod.snd := by
  intro es
  induction es with
  | nil => exact fun s => (List.append_nil _).symm
  | cons e es ih =>
      intro s
      rw [scan]
      split
      · rename_i hlt
        rw [ih, List.filter_cons_of_pos (by simpa using hlt), List.map_cons, List.append_assoc]
        rfl
      · rename_i hge
        rw [ih, List.filter_cons_of_neg (by simpa using hge)]

theorem find?_scan (start key : Nat) : ∀ (es : List (Nat × (Nat × α))) (s : Replay σ α),
    (scan p start es s).toFreeMap.find? key =
      if key < start ∧ key ∈ es.map Prod.fst then none else s.toFreeMap.find? key := by
  intro es
  induction es with
  | nil => simp [scan]
  | cons e es ih =>
      intro s
      rw [scan]
      split
      · rename_i hlt
        rw [ih, OrdMap.find?_erase]
        by_cases hkey : key = e.1
        · rw [if_pos hkey, ite_self, if_pos ⟨by rw [hkey]; exact hlt, by simp [hkey]⟩]
        · rw [if_neg hkey]
          exact if_congr (and_congr_right fun _ => by simp [hkey]) rfl rfl
      · rename_i hge
        rw [ih]
        refine if_congr (and_congr_right fun hlt => ?_) rfl rfl
        have hkey : key ≠ e.1 := fun heq => hge (by rw [← heq]; exact hlt)
        simp [hkey]

end Replay

/-! ## The invariant -/

/-- The block with the end time stamp `time` that came first. -/
def firstEnding {α : Type} (blocks : List MemoryBlock) (addrs : List α) (time : Nat) :
    Option (Nat × α) :=
  (blocks.findIdx? fun b => b.endTimeStamp == time).bind fun j => addrs[j]?.map fun a => (j, a)

/-- The start of the last line. -/
def lastStart (blocks : List MemoryBlock) : Nat :=
  (blocks.getLast?.map MemoryBlock.startTimeStamp).getD 0

/-- Of the blocks that came first with their time stamp the ones before the start of
the last line have been freed, and the others are in the map. -/
structure ReplayInv {σ α : Type} (blocks : List MemoryBlock) (s : Replay σ α) : Prop where
  addrs : s.addrs.length = blocks.length
  pending : ∀ time, s.toFreeMap.find? time =
    if time < lastStart blocks then none else firstEnding blocks s.addrs time
  freed : ∀ x, x ∈ s.freed ↔ ∃ time, time < lastStart blocks ∧
    firstEnding blocks s.addrs time = some x
  nodup : (s.freed.map Prod.fst).Nodup

section

variable {α : Type} {blocks : List MemoryBlock} {addrs : List α}

theorem firstEnding_snoc (hlen : addrs.length = blocks.length) (block : MemoryBlock) (addr : α)
    (time : Nat) : firstEnding (blocks ++ [block]) (addrs ++ [addr]) time =
      (firstEnding blocks addrs time).or
        (if time = block.endTimeStamp then some (addrs.length, addr) else none) := by
  rw [firstEnding, firstEnding, List.findIdx?_append]
  cases hidx : blocks.findIdx? fun b => b.endTimeStamp == time with
  | some j =>
      have hj : j < addrs.length := by
        have hlt := (List.findIdx?_eq_some_iff_getElem.mp hidx).1
        omega
      rw [Option.some_or, Option.bind_some, Option.bind_some, List.getElem?_append_left hj,
        List.getElem?_eq_getElem hj]
      rfl
  | none =>
      rw [Option.none_or, Option.bind_none, Option.none_or, ← hlen]
      by_cases htime : time = block.endTimeStamp
      · rw [if_pos htime]
        simp [htime, List.findIdx?_cons]
      · have hne : (block.endTimeStamp == time) = false := beq_eq_false_iff_ne.mpr (Ne.symm htime)
        rw [if_neg htime]
        simp [List.findIdx?_cons, hne]

/-- The time stamp under which a block is found is its own, and no earlier block has
it. -/
theorem firstEnding_eq_some_iff {time : Nat} {x : Nat × α} :
    firstEnding blocks addrs time = some x ↔
      (blocks.findIdx? fun b => b.endTimeStamp == time) = some x.1 ∧ addrs[x.1]? = some x.2 := by
  rw [firstEnding, Option.bind_eq_some_iff]
  constructor
  · rintro ⟨j, hj, h⟩
    obtain ⟨a, ha, rfl⟩ := Option.map_eq_some_iff.mp h
    exact ⟨hj, ha⟩
  · rintro ⟨hj, ha⟩
    exact ⟨x.1, hj, by rw [ha]; rfl⟩

theorem findIdx?_ending_iff {time j : Nat} :
    (blocks.findIdx? fun b => b.endTimeStamp == time) = some j ↔
      blocks[j]?.map MemoryBlock.endTimeStamp = some time ∧
        ∀ i, i < j → blocks[i]?.map MemoryBlock.endTimeStamp ≠ some time := by
  rw [List.findIdx?_eq_some_iff_getElem]
  constructor
  · rintro ⟨hj, hend, hfirst⟩
    refine ⟨?_, fun i hi hbad => ?_⟩
    · rw [List.getElem?_eq_getElem hj, Option.map_some, beq_iff_eq.mp hend]
    · rw [List.getElem?_eq_getElem (by omega), Option.map_some, Option.some.injEq] at hbad
      exact hfirst i hi (beq_iff_eq.mpr hbad)
  · rintro ⟨hend, hfirst⟩
    obtain ⟨b, hb, hend⟩ := Option.map_eq_some_iff.mp hend
    obtain ⟨hj, hb⟩ := List.getElem?_eq_some_iff.mp hb
    refine ⟨hj, by rw [hb]; exact beq_iff_eq.mpr hend, fun i hi hbad => ?_⟩
    refine hfirst i hi ?_
    rw [List.getElem?_eq_getElem (by omega), Option.map_some, beq_iff_eq.mp hbad]

theorem lastStart_snoc (blocks : List MemoryBlock) (block : MemoryBlock) :
    lastStart (blocks ++ [block]) = block.startTimeStamp := by
  rw [lastStart, List.getLast?_concat]
  rfl

/-- A block ends at one time. -/
theorem firstEnding_inj {time time' : Nat} {x x' : Nat × α}
    (h : firstEnding blocks addrs time = some x) (h' : firstEnding blocks addrs time' = some x')
    (heq : x.1 = x'.1) : time = time' := by
  have hend := (findIdx?_ending_iff.mp (firstEnding_eq_some_iff.mp h).1).1
  have hend' := (findIdx?_ending_iff.mp (firstEnding_eq_some_iff.mp h').1).1
  rw [heq, hend'] at hend
  exact (Option.some.inj hend).symm

/-- In a trace no line starts after the last one. -/
theorem IsTrace.le_lastStart (h : IsTrace blocks) {b : MemoryBlock} (hb : b ∈ blocks) :
    b.startTimeStamp ≤ lastStart blocks := by
  obtain ⟨pre, last, rfl⟩ := List.eq_nil_or_concat' blocks |>.resolve_left (List.ne_nil_of_mem hb)
  rw [lastStart_snoc]
  rcases List.mem_append.mp hb with hb | hb
  · exact (List.pairwise_append.mp h.sorted).2.2 b hb last (List.mem_singleton.mpr rfl)
  · rw [List.mem_singleton.mp hb]

theorem IsTrace.init {block : MemoryBlock} (h : IsTrace (blocks ++ [block])) : IsTrace blocks :=
  ⟨(List.pairwise_append.mp h.sorted).1, fun b hb => h.ordered b (List.mem_append_left _ hb)⟩

/-- A block is due if it ends before the last line starts. -/
theorem IsTrace.due_iff (h : IsTrace blocks) {j : Nat} :
    Due blocks j ↔ ∃ time, blocks[j]?.map MemoryBlock.endTimeStamp = some time ∧
      time < lastStart blocks := by
  constructor
  · rintro ⟨b, k, c, hb, -, hc, hlt⟩
    refine ⟨b.endTimeStamp, by rw [hb]; rfl, ?_⟩
    exact Nat.lt_of_lt_of_le hlt (h.le_lastStart (List.mem_of_getElem? hc))
  · rintro ⟨time, hend, hlt⟩
    obtain ⟨b, hb, rfl⟩ := Option.map_eq_some_iff.mp hend
    clear hend
    have hmem := List.mem_of_getElem? hb
    obtain ⟨pre, last, rfl⟩ :=
      List.eq_nil_or_concat' blocks |>.resolve_left (List.ne_nil_of_mem hmem)
    rw [lastStart_snoc] at hlt
    have hj : j < pre.length := by
      by_contra hge
      have hlt' := (List.getElem?_eq_some_iff.mp hb).1
      rw [List.length_append, List.length_singleton] at hlt'
      obtain rfl : j = pre.length := by omega
      rw [List.getElem?_append_right (Nat.le_refl _), Nat.sub_self] at hb
      cases hb
      have hle := h.ordered _ hmem
      omega
    refine ⟨b, pre.length, last, hb, hj, ?_, hlt⟩
    rw [List.getElem?_append_right (Nat.le_refl _), Nat.sub_self]
    rfl

end

namespace Replay

variable {σ α : Type} {blocks : List MemoryBlock} {block : MemoryBlock} {s : Replay σ α}
  {p : TensorPool σ α} {pool : σ}

/-- A line starts after the line before it and before the end of its block. -/
theorem lastStart_le (htrace : IsTrace (blocks ++ [block])) :
    lastStart blocks ≤ block.startTimeStamp ∧ block.startTimeStamp ≤ block.endTimeStamp := by
  refine ⟨?_, htrace.ordered block (by simp)⟩
  rcases List.eq_nil_or_concat' blocks with rfl | ⟨pre, last, rfl⟩
  · exact Nat.zero_le _
  · rw [lastStart_snoc]
    exact (List.pairwise_append.mp htrace.sorted).2.2 last (by simp) block
      (List.mem_singleton.mpr rfl)

/-- The map after a line of the trace, before the scan. -/
theorem find?_toFreeMap (h : ReplayInv blocks s) (htrace : IsTrace (blocks ++ [block])) (addr : α)
    (time : Nat) :
    (s.toFreeMap.emplace block.endTimeStamp (s.addrs.length, addr)).find? time =
      if time < lastStart blocks then none
      else firstEnding (blocks ++ [block]) (s.addrs ++ [addr]) time := by
  obtain ⟨hstart, hend⟩ := lastStart_le htrace
  rw [OrdMap.find?_emplace, h.pending, firstEnding_snoc h.addrs]
  split
  · rw [Option.none_or, if_neg (by omega)]
  · rfl

/-- Before the start of the last line nothing changes. -/
theorem firstEnding_of_lt (h : ReplayInv blocks s) (htrace : IsTrace (blocks ++ [block])) (addr : α)
    {time : Nat} (hlt : time < lastStart blocks) :
    firstEnding (blocks ++ [block]) (s.addrs ++ [addr]) time =
      firstEnding blocks s.addrs time := by
  obtain ⟨hstart, hend⟩ := lastStart_le htrace
  rw [firstEnding_snoc h.addrs, if_neg (by omega), Option.or_none]

/-- One line of the trace. -/
theorem replayInv_line (h : ReplayInv blocks s) (htrace : IsTrace (blocks ++ [block])) :
    ReplayInv (blocks ++ [block]) (line p s block) := by
  rw [line]
  generalize p.allocTensorMem block.size block.isPersistent s.pool = alloc
  obtain ⟨addr, pool⟩ := alloc
  dsimp only
  have hmap := find?_toFreeMap h htrace addr
  have hold : ∀ {time : Nat}, time < lastStart blocks →
      firstEnding (blocks ++ [block]) (s.addrs ++ [addr]) time =
        firstEnding blocks s.addrs time := firstEnding_of_lt h htrace addr
  obtain ⟨hstart, -⟩ := lastStart_le htrace
  generalize s.toFreeMap.emplace block.endTimeStamp (s.addrs.length, addr) = m at hmap
  -- what the scan frees
  have hscan : ∀ e : Nat × (Nat × α), e ∈ m.entries ↔ ¬ e.1 < lastStart blocks ∧
      firstEnding (blocks ++ [block]) (s.addrs ++ [addr]) e.1 = some e.2 := by
    intro e
    rw [← OrdMap.find?_eq_some_iff (k := e.1) (v := e.2), hmap]
    split
    · rename_i hlt
      exact ⟨nofun, fun hnot => absurd hlt hnot.1⟩
    · rename_i hge
      exact ⟨fun heq => ⟨hge, heq⟩, fun heq => heq.2⟩
  refine ⟨?_, fun time => ?_, fun x => ?_, ?_⟩
  · rw [addrs_scan, List.length_append, List.length_append, h.addrs]
    rfl
  · rw [find?_scan, lastStart_snoc, addrs_scan]
    dsimp only
    by_cases hlt : time < block.startTimeStamp
    · rw [if_pos hlt]
      split
      · rfl
      · rename_i hnot
        rw [← Option.not_isSome_iff_eq_none, ← OrdMap.mem_keys_iff]
        exact fun hmem => hnot ⟨hlt, hmem⟩
    · rw [if_neg hlt, if_neg (fun hboth => hlt hboth.1), hmap, if_neg (by omega)]
  · rw [freed_scan, addrs_scan, lastStart_snoc, List.mem_append, h.freed, List.mem_map]
    dsimp only
    constructor
    · rintro (⟨time, hlt, hfirst⟩ | ⟨e, he, rfl⟩)
      · exact ⟨time, by omega, by rw [hold hlt]; exact hfirst⟩
      · obtain ⟨hmem, hlt⟩ := List.mem_filter.mp he
        exact ⟨e.1, of_decide_eq_true hlt, ((hscan e).mp hmem).2⟩
    · rintro ⟨time, hlt, hfirst⟩
      by_cases hlast : time < lastStart blocks
      · exact Or.inl ⟨time, hlast, by rw [← hold hlast]; exact hfirst⟩
      · exact Or.inr ⟨(time, x), List.mem_filter.mpr
          ⟨(hscan (time, x)).mpr ⟨hlast, hfirst⟩, decide_eq_true hlt⟩, rfl⟩
  · rw [freed_scan, List.map_append, List.nodup_append]
    dsimp only
    refine ⟨h.nodup, ?_, ?_⟩
    · rw [List.map_map, List.Nodup, List.pairwise_map]
      refine List.Pairwise.imp_of_mem ?_ (m.sorted.filter _)
      intro e e' he he' hlt heq
      have hfirst := ((hscan e).mp (List.mem_filter.mp he).1).2
      have hfirst' := ((hscan e').mp (List.mem_filter.mp he').1).2
      exact absurd (firstEnding_inj hfirst hfirst' heq) (Nat.ne_of_lt hlt)
    · intro j hj j' hj' heq
      obtain ⟨x, hx, rfl⟩ := List.mem_map.mp hj
      obtain ⟨x', hx', rfl⟩ := List.mem_map.mp hj'
      obtain ⟨e, he, rfl⟩ := List.mem_map.mp hx'
      obtain ⟨time, hlt, hfirst⟩ := (h.freed x).mp hx
      rw [← hold hlt] at hfirst
      obtain ⟨hge, hfirst'⟩ := (hscan e).mp (List.mem_filter.mp he).1
      have htime := firstEnding_inj hfirst hfirst' heq
      omega

theorem replayInv_replay (htrace : IsTrace blocks) : ReplayInv blocks (replay p pool blocks) := by
  induction blocks using List.reverseRecOn with
  | nil =>
      refine ⟨rfl, fun time => ?_, fun x => ?_, List.nodup_nil⟩
      · show none = _
        split <;> rfl
      · exact ⟨nofun, fun ⟨_, _, h⟩ => nomatch h⟩
  | append_singleton blocks block ih =>
      rw [replay, List.foldl_append]
      exact replayInv_line (ih htrace.init) htrace

end Replay

/-- For every trace: the blocks that are due have been freed once, and no others,
exactly if no block that is due ends with one of an earlier line. -/
theorem freedRight_iff_noClash {σ α : Type} {blocks : List MemoryBlock} (htrace : IsTrace blocks)
    (p : TensorPool σ α) (pool : σ) :
    FreedRight blocks (Replay.replay p pool blocks) ↔ NoClash blocks := by
  have hinv : ReplayInv blocks (Replay.replay p pool blocks) := Replay.replayInv_replay htrace
  generalize Replay.replay p pool blocks = s at hinv ⊢
  -- a block has been freed if it is due and came first with its time stamp
  have hmem : ∀ j, j ∈ s.freed.map Prod.fst ↔ Due blocks j ∧ ∀ i, i < j →
      blocks[i]?.map MemoryBlock.endTimeStamp ≠ blocks[j]?.map MemoryBlock.endTimeStamp := by
    intro j
    rw [htrace.due_iff, List.mem_map]
    constructor
    · rintro ⟨x, hx, rfl⟩
      obtain ⟨time, hlt, hfirst⟩ := (hinv.freed x).mp hx
      obtain ⟨hend, hbefore⟩ := findIdx?_ending_iff.mp (firstEnding_eq_some_iff.mp hfirst).1
      exact ⟨⟨time, hend, hlt⟩, fun i hi => by rw [hend]; exact hbefore i hi⟩
    · rintro ⟨⟨time, hend, hlt⟩, hbefore⟩
      rw [hend] at hbefore
      obtain ⟨b, hb, -⟩ := Option.map_eq_some_iff.mp hend
      have hj : j < s.addrs.length := by
        rw [hinv.addrs]
        exact (List.getElem?_eq_some_iff.mp hb).1
      refine ⟨(j, s.addrs[j]), (hinv.freed _).mpr ⟨time, hlt, ?_⟩, rfl⟩
      exact firstEnding_eq_some_iff.mpr
        ⟨findIdx?_ending_iff.mpr ⟨hend, hbefore⟩, List.getElem?_eq_getElem hj⟩
  constructor
  · intro hright j hdue
    refine ((hmem j).mp ?_).2
    rw [← List.count_pos_iff, hright.once j hdue]
    exact Nat.one_pos
  · intro hclash
    refine ⟨fun j hdue => ?_, fun j hdue => ?_, fun x hx => ?_⟩
    · exact List.count_eq_one_of_mem hinv.nodup ((hmem j).mpr ⟨hdue, hclash j hdue⟩)
    · exact List.count_eq_zero_of_not_mem fun hj => hdue ((hmem j).mp hj).1
    · obtain ⟨time, -, hfirst⟩ := (hinv.freed x).mp hx
      exact (firstEnding_eq_some_iff.mp hfirst).2

/-- A pool that does not use an address again. -/
def bumpPool : TensorPool Nat Nat where
  allocTensorMem size _ top := (top, top + size)
  freeTensorMem _ top := top

/-- The first block ends before the second starts. -/
def twoLines : List MemoryBlock :=
  [{ startTimeStamp := 1, endTimeStamp := 2, size := 512 },
    { startTimeStamp := 3, endTimeStamp := 4, size := 512 }]

theorem freedRight_iff_noClash_two :
    IsTrace twoLines ∧ FreedRight twoLines (Replay.replay bumpPool 8 twoLines) := by
  have htrace : IsTrace twoLines := ⟨by simp [twoLines], by simp [twoLines]⟩
  refine ⟨htrace, (freedRight_iff_noClash htrace bumpPool 8).mpr ?_⟩
  rintro j ⟨b, k, c, -, hjk, hc, -⟩ i hij
  have hk := (List.getElem?_eq_some_iff.mp hc).1
  rw [show twoLines.length = 2 from rfl] at hk
  omega

/-- Two blocks that end at the same time, and a line that starts later. -/
def sameEnd : List MemoryBlock :=
  [{ startTimeStamp := 1, endTimeStamp := 2, size := 512 },
    { startTimeStamp := 1, endTimeStamp := 2, size := 512 },
    { startTimeStamp := 3, endTimeStamp := 4, size := 512 }]

/-- The second of them is never freed. -/
theorem second_of_same_end_leaks :
    ¬ ∀ (p : TensorPool Nat Nat) (pool : Nat) (blocks : List MemoryBlock), IsTrace blocks →
      FreedRight blocks (Replay.replay p pool blocks) := by
  intro hall
  have hright := hall bumpPool 8 sameEnd ⟨by simp [sameEnd], by simp [sameEnd]⟩
  have honce := hright.once 1 ⟨_, 2, _, rfl, by decide, rfl, by decide⟩
  exact absurd honce (by decide)

end Ccbase.Memory
