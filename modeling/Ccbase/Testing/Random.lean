import Ccbase.Testing.Philox
import Ccbase.Lib.SizeT
import Ccbase.Lib.Tiling
import Mathlib.Data.List.Perm.Basic

/-!
# `GenerateRandomsParallel`

A buffer is filled by one loop, or by tasks that each fill a part of it with a
generator of their own, moved to the first number of the part. The parts start at
multiples of four, so each starts with a new block of the generator and with
nothing left over in the distribution.

Floating point functions are not interpreted: a distribution is what it does with
the numbers it draws.
-/

namespace Ccbase.Testing

open Ccbase.Lib

/-- One number for a sample, or two for two samples in a row. The second of two
samples is kept in the object (`has_next_`, `next_`). -/
inductive Distribution (T : Type) where
  | single (f : UInt32 → T)
  | paired (f h : UInt32 → UInt32 → T)

/-- `operator()`: the sample, and what the object and the generator are then. -/
def Distribution.sample {T : Type} (dis : Distribution T) (kept : Option T) (g : Philox) :
    T × Option T × Philox :=
  match dis, kept with
  | .single f, kept =>
      let (u, g) := g.draw
      (f u, kept, g)
  | .paired _ _, some v => (v, none, g)
  | .paired f h, none =>
      let (u1, g) := g.draw
      let (u2, g) := g.draw
      (f u1 u2, some (h u1 u2), g)

variable {T : Type}

/-- The loop of `GenerateRandoms`: the values, in order, that go into the buffer. -/
def fill (dis : Distribution T) : Nat → Option T → Philox → List T
  | 0, _, _ => []
  | n + 1, kept, g =>
      let (v, kept, g) := dis.sample kept g
      v :: fill dis n kept g

def generateRandoms (seed : UInt64) (skip : Nat) (size : Nat) (dis : Distribution T) : List T :=
  fill dis size none ((Philox.ofSeed seed).discard (UInt64.ofNat skip))

def minParallelSize : Nat := 1024

def blockSize : Nat := 4

/-- `ComputeTaskNumSize`. -/
def computeTaskNumSize (totalSize threadNum : Nat) : Nat × Nat :=
  if threadNum = 0 ∨ totalSize ≤ minParallelSize then (1, totalSize)
  else
    let blockCount := subSize (addSize totalSize blockSize) 1 / blockSize
    if blockCount ≤ threadNum then (blockCount, blockSize)
    else
      let blocksPerThread := subSize (addSize blockCount threadNum) 1 / threadNum
      let taskNum := subSize (addSize blockCount blocksPerThread) 1 / blocksPerThread
      (taskNum, mulSize blocksPerThread blockSize)

/-- What a task captures; `start` is where `task_buf` points to in the buffer. -/
structure Task where
  skip : Nat
  start : Nat
  size : Nat
  deriving DecidableEq, Repr

/-- The loop that prepares the tasks, `rounds` rounds from `i` on. -/
def prepareTasks (bufSize taskNum batchSize : Nat) : Nat → Nat → Nat → Nat → List Task
  | 0, _, _, _ => []
  | rounds + 1, i, skip, start =>
      let taskSize :=
        if i = subSize taskNum 1 then subSize bufSize (mulSize (subSize taskNum 1) batchSize)
        else batchSize
      ⟨skip, start, taskSize⟩ ::
        prepareTasks bufSize taskNum batchSize rounds (i + 1) (addSize skip taskSize)
          (start + taskSize)

/-- What is to be run for a buffer: one call for the whole of it, or the tasks. -/
def tasksOf (bufSize threadNum : Nat) : List Task :=
  let (taskNum, batchSize) := computeTaskNumSize bufSize threadNum
  if taskNum = 1 then [⟨0, 0, bufSize⟩] else prepareTasks bufSize taskNum batchSize taskNum 0 0 0

/-- The writes of values from an index on. -/
def writesFrom : Nat → List T → List (Nat × T)
  | _, [] => []
  | i, v :: vs => (i, v) :: writesFrom (i + 1) vs

/-- The writes of a task to the buffer. -/
def Task.writes (seed : UInt64) (dis : Distribution T) (t : Task) : List (Nat × T) :=
  writesFrom t.start (generateRandoms seed t.skip t.size dis)

/-- All writes of `GenerateRandomsParallel`; a seed of zero is replaced by a number
of `std::random_device`. -/
def generateRandomsParallel (inputSeed randomDevice : UInt64) (bufSize threadNum : Nat)
    (dis : Distribution T) : List (Nat × T) :=
  let seed := if inputSeed = 0 then randomDevice else inputSeed
  (tasksOf bufSize threadNum).flatMap (Task.writes seed dis)

/-- A buffer after some writes. -/
def applyWrites (buf : Nat → T) (ws : List (Nat × T)) : Nat → T :=
  ws.foldl (fun buf w => Function.update buf w.1 w.2) buf

/-! ## The generator at a block -/

namespace Philox

/-- The generator of a seed in front of block `b`. -/
def seek (seed : UInt64) (b : Nat) : Philox :=
  { ofSeed seed with counter := Counter.skipOne^[b] (ofSeed seed).counter }

theorem discard_ofSeed (seed : UInt64) {b : Nat} (h : 4 * b < 2 ^ 64) :
    (ofSeed seed).discard (UInt64.ofNat (4 * b)) = seek seed b := by
  have hstep : (UInt64.ofNat (4 * b)).toNat = 4 * b := UInt64.toNat_ofNat_of_lt' h
  have hcount : (UInt64.ofNat (4 * b) / 4).toNat = b := by
    rw [UInt64.toNat_div, hstep]
    show 4 * b / 4 = b
    omega
  have hremain : (UInt64.ofNat (4 * b) % 4).toNat = 0 := by
    rw [UInt64.toNat_mod, hstep]
    show 4 * b % 4 = 0
    omega
  have hskip := Counter.skip_eq_iterate (ofSeed seed).counter
    (show (UInt64.ofNat (4 * b) / 4).toNat < 2 ^ 64 - 2 ^ 32 by rw [hcount]; omega)
  rw [hcount] at hskip
  have hindex : (ofSeed seed).index = kCounterNum := rfl
  rw [discard, if_pos hindex, hremain, hskip]
  rfl

end Philox

theorem Distribution.sample_agree (dis : Distribution T) (kept : Option T) {g g' : Philox}
    (h : Philox.Agree g g') :
    (dis.sample kept g).1 = (dis.sample kept g').1 ∧
      (dis.sample kept g).2.1 = (dis.sample kept g').2.1 ∧
      Philox.Agree (dis.sample kept g).2.2 (dis.sample kept g').2.2 := by
  cases dis with
  | single f => exact ⟨congrArg f h.draw.1, rfl, h.draw.2⟩
  | paired f e =>
      cases kept with
      | some v => exact ⟨rfl, rfl, h⟩
      | none =>
          obtain ⟨h1, h2⟩ := h.draw
          obtain ⟨h3, h4⟩ := h2.draw
          refine ⟨?_, ?_, h4⟩
          · show f g.draw.1 g.draw.2.draw.1 = f g'.draw.1 g'.draw.2.draw.1
            rw [h1, h3]
          · show some (e g.draw.1 g.draw.2.draw.1) = some (e g'.draw.1 g'.draw.2.draw.1)
            rw [h1, h3]

theorem fill_agree (dis : Distribution T) : ∀ (n : Nat) (kept : Option T) {g g' : Philox},
    Philox.Agree g g' → fill dis n kept g = fill dis n kept g' := by
  intro n
  induction n with
  | zero =>
      intro kept g g' _
      rfl
  | succ n ih =>
      intro kept g g' h
      obtain ⟨h1, h2, h3⟩ := dis.sample_agree kept h
      rw [fill, fill]
      simp only [h1, h2, ih _ h3]

theorem length_fill (dis : Distribution T) : ∀ (n : Nat) (kept : Option T) (g : Philox),
    (fill dis n kept g).length = n := by
  intro n
  induction n with
  | zero =>
      intro kept g
      rfl
  | succ n ih =>
      intro kept g
      rw [fill, List.length_cons, ih]

/-- The samples of one block, and then the rest with the next block. -/
theorem fill_block (dis : Distribution T) (seed : UInt64) (b n : Nat) :
    fill dis (4 + n) none (Philox.seek seed b) =
      fill dis 4 none (Philox.seek seed b) ++ fill dis n none (Philox.seek seed (b + 1)) := by
  have hcounter : Counter.skipOne^[b + 1] (Philox.ofSeed seed).counter =
      (Counter.skipOne^[b] (Philox.ofSeed seed).counter).skipOne :=
    Function.iterate_succ_apply' ..
  have hagree : Philox.Agree
      { Philox.seek seed b with
        counter := (Philox.seek seed b).counter.skipOne
        results := Philox.block (Philox.seek seed b).key (Philox.seek seed b).counter }
      (Philox.seek seed (b + 1)) :=
    ⟨rfl, hcounter.symm, rfl, fun h => absurd rfl h⟩
  rw [← fill_agree dis n none hagree, Nat.add_comm]
  cases dis with
  | single f => rfl
  | paired f e => rfl

theorem fill_blocks (dis : Distribution T) (seed : UInt64) (c n : Nat) : ∀ b : Nat,
    fill dis (4 * c + n) none (Philox.seek seed b) =
      fill dis (4 * c) none (Philox.seek seed b) ++
        fill dis n none (Philox.seek seed (b + c)) := by
  induction c with
  | zero =>
      intro b
      rw [Nat.mul_zero, Nat.zero_add]
      rfl
  | succ c ih =>
      intro b
      rw [show 4 * (c + 1) + n = 4 + (4 * c + n) by omega, fill_block, ih (b + 1),
        show 4 * (c + 1) = 4 + 4 * c by omega, fill_block, List.append_assoc,
        show b + 1 + c = b + (c + 1) by omega]

/-! ## The parts of the buffer -/

theorem writesFrom_append (vs ws : List T) : ∀ i : Nat,
    writesFrom i (vs ++ ws) = writesFrom i vs ++ writesFrom (i + vs.length) ws := by
  induction vs with
  | nil =>
      intro i
      rfl
  | cons v vs ih =>
      intro i
      rw [List.cons_append, writesFrom, ih, writesFrom, List.length_cons,
        show i + 1 + vs.length = i + (vs.length + 1) by omega]
      rfl

/-- Tasks one behind the other that start at multiples of four. -/
structure Parts (a : Nat) (ts : List Task) (z : Nat) : Prop where
  tiles : Tiles Task.start Task.size a ts z
  skip : ∀ t ∈ ts, t.skip = t.start
  aligned : ∀ t ∈ ts, 4 ∣ t.start

/-- The tasks write what one loop would. -/
theorem Parts.writes (dis : Distribution T) (seed : UInt64) {ts : List Task} :
    ∀ {b z : Nat}, Parts (4 * b) ts z → z < 2 ^ 64 → ts.flatMap (Task.writes seed dis) =
      writesFrom (4 * b) (fill dis (z - 4 * b) none (Philox.seek seed b)) := by
  induction ts with
  | nil =>
      intro b z h _
      have hz : 4 * b = z := h.tiles
      rw [← hz, Nat.sub_self]
      rfl
  | cons t ts ih =>
      intro b z h hz
      obtain ⟨hstart, hpos, htail⟩ := h.tiles
      have hskip := h.skip t (List.mem_cons_self ..)
      have hle := htail.le
      have hwrites : t.writes seed dis =
          writesFrom (4 * b) (fill dis t.size none (Philox.seek seed b)) := by
        rw [Task.writes, generateRandoms, hskip, hstart, Philox.discard_ofSeed seed (by omega)]
      rw [List.flatMap_cons, hwrites]
      cases ts with
      | nil =>
          have hend : 4 * b + t.size = z := htail
          rw [List.flatMap_nil, List.append_nil, show z - 4 * b = t.size by omega]
      | cons t' ts =>
          -- the next task starts at a multiple of four, so this one ends there
          have halign := h.aligned t' (by simp)
          rw [htail.1] at halign
          obtain ⟨e, he⟩ := halign
          have hparts : Parts (4 * e) (t' :: ts) z :=
            ⟨by rw [← he]; exact htail, fun u hu => h.skip u (List.mem_cons_of_mem t hu),
              fun u hu => h.aligned u (List.mem_cons_of_mem t hu)⟩
          rw [ih hparts hz, show z - 4 * b = 4 * (e - b) + (z - 4 * e) by omega, fill_blocks,
            writesFrom_append, length_fill, show t.size = 4 * (e - b) by omega,
            show 4 * b + 4 * (e - b) = 4 * e by omega, show b + (e - b) = e by omega]

/-- What `ComputeTaskNumSize` returns for a buffer that is divided. -/
structure Batches (bufSize taskNum batchSize : Nat) : Prop where
  aligned : 4 ∣ batchSize
  pos : 0 < taskNum
  last : (taskNum - 1) * batchSize < bufSize
  cover : bufSize ≤ taskNum * batchSize

theorem ceil_div_bounds {n d : Nat} (hn : 0 < n) (hd : 0 < d) :
    0 < (n + d - 1) / d ∧ ((n + d - 1) / d - 1) * d < n ∧ n ≤ (n + d - 1) / d * d := by
  have hmod := Nat.div_add_mod (n + d - 1) d
  have hlt := Nat.mod_lt (n + d - 1) hd
  have hpos : 0 < (n + d - 1) / d := Nat.div_pos (by omega) hd
  rw [Nat.mul_comm] at hmod
  refine ⟨hpos, ?_, by omega⟩
  rw [Nat.sub_mul, Nat.one_mul]
  omega

theorem computeTaskNumSize_spec {bufSize threadNum : Nat} (hbuf : bufSize ≤ 2 ^ 62)
    (hthread : threadNum < 2 ^ 62) :
    computeTaskNumSize bufSize threadNum = (1, bufSize) ∨
      ∃ taskNum batchSize, computeTaskNumSize bufSize threadNum = (taskNum, batchSize) ∧
        taskNum < 2 ^ 64 ∧ Batches bufSize taskNum batchSize := by
  have hbound : sizeBound = 2 ^ 64 := rfl
  by_cases hsmall : threadNum = 0 ∨ bufSize ≤ minParallelSize
  · rw [computeTaskNumSize, if_pos hsmall]
    exact Or.inl rfl
  rw [computeTaskNumSize, if_neg hsmall]
  right
  have hmin : minParallelSize = 1024 := rfl
  have hthread0 : 0 < threadNum := by omega
  have hround : ∀ {n d : Nat}, 0 < n → n + d < 2 ^ 64 →
      subSize (addSize n d) 1 = n + d - 1 := by
    intro n d hn hlt
    rw [addSize_eq hlt, subSize_eq hlt (by omega)]
  generalize hcount : subSize (addSize bufSize blockSize) 1 / blockSize = count
  have hcount' : (bufSize + 4 - 1) / 4 = count := by
    rw [← hround (show 0 < bufSize by omega) (show bufSize + 4 < 2 ^ 64 by omega)]
    exact hcount
  obtain ⟨hcpos, hclast, hccover⟩ := ceil_div_bounds (show 0 < bufSize by omega)
    (show 0 < 4 by decide)
  rw [hcount'] at hcpos hclast hccover
  show ∃ taskNum batchSize, (if count ≤ threadNum then _ else _) = _ ∧ _
  by_cases hfew : count ≤ threadNum
  · rw [if_pos hfew]
    exact ⟨count, 4, rfl, by omega, Nat.dvd_refl 4, hcpos, hclast, hccover⟩
  rw [if_neg hfew]
  generalize hper : subSize (addSize count threadNum) 1 / threadNum = per
  rw [hround hcpos (show count + threadNum < 2 ^ 64 by omega)] at hper
  obtain ⟨hppos, hplast, hpcover⟩ := ceil_div_bounds hcpos hthread0
  have hple : (count + threadNum - 1) / threadNum ≤ count := by
    have hmul := Nat.mul_le_mul (show 1 ≤ threadNum from hthread0) (Nat.le_refl (count - 1))
    have hsucc : threadNum * count = threadNum * (count - 1) + threadNum := by
      rw [← Nat.mul_succ]
      congr 1
      omega
    exact Nat.div_le_of_le_mul (by omega)
  rw [hper] at hppos hplast hpcover hple
  show ∃ taskNum batchSize,
    (subSize (addSize count per) 1 / per, mulSize per blockSize) = (taskNum, batchSize) ∧ _
  generalize hnum : subSize (addSize count per) 1 / per = num
  rw [hround hcpos (show count + per < 2 ^ 64 by omega)] at hnum
  obtain ⟨htpos, htlast, htcover⟩ := ceil_div_bounds hcpos hppos
  have htle : (count + per - 1) / per ≤ count + per - 1 := Nat.div_le_self _ _
  rw [hnum] at htpos htlast htcover htle
  have hbatch : mulSize per blockSize = per * 4 := mulSize_eq (show per * 4 < sizeBound by omega)
  refine ⟨num, mulSize per blockSize, rfl, by omega, ?_⟩
  rw [hbatch]
  refine ⟨Nat.dvd_mul_left 4 per, htpos, ?_, ?_⟩
  · rw [← Nat.mul_assoc]
    omega
  · rw [← Nat.mul_assoc]
    omega

theorem prepareTasks_parts {bufSize taskNum batchSize : Nat} (hbuf : bufSize ≤ 2 ^ 62)
    (hnum : taskNum < 2 ^ 64) (h : Batches bufSize taskNum batchSize) : ∀ (rounds i : Nat),
    i + (rounds + 1) = taskNum → Parts (i * batchSize)
      (prepareTasks bufSize taskNum batchSize (rounds + 1) i (i * batchSize) (i * batchSize))
      bufSize := by
  have hbound : sizeBound = 2 ^ 64 := rfl
  have hlast := h.last
  have hcover := h.cover
  have hpos := h.pos
  have hone : subSize taskNum 1 = taskNum - 1 := subSize_eq (by omega) (by omega)
  intro rounds
  induction rounds with
  | zero =>
      intro i hi
      have hi' : i = taskNum - 1 := by omega
      subst hi'
      have hmul : mulSize (taskNum - 1) batchSize = (taskNum - 1) * batchSize :=
        mulSize_eq (by omega)
      have hsize : subSize bufSize ((taskNum - 1) * batchSize) =
          bufSize - (taskNum - 1) * batchSize := subSize_eq (by omega) (by omega)
      rw [prepareTasks, hone, if_pos rfl, hmul, hsize]
      refine ⟨⟨rfl, ?_, ?_⟩, by simp [prepareTasks], ?_⟩
      · show 0 < bufSize - (taskNum - 1) * batchSize
        omega
      · show (taskNum - 1) * batchSize + (bufSize - (taskNum - 1) * batchSize) = bufSize
        omega
      · intro t ht
        rw [List.mem_singleton.mp ht]
        exact Nat.dvd_mul_left_of_dvd h.aligned _
  | succ rounds ih =>
      intro i hi
      have hne : i ≠ taskNum - 1 := by omega
      have hstep : i * batchSize + batchSize = (i + 1) * batchSize := (Nat.succ_mul i _).symm
      have hle : (i + 1) * batchSize ≤ (taskNum - 1) * batchSize :=
        Nat.mul_le_mul_right batchSize (by omega)
      have hbatch : 0 < batchSize := by
        rcases Nat.eq_zero_or_pos batchSize with h0 | h0
        · rw [h0, Nat.mul_zero] at hcover
          omega
        · exact h0
      rw [prepareTasks, hone, if_neg hne, addSize_eq (by omega), hstep]
      have htail := ih (i + 1) (by omega)
      refine ⟨⟨rfl, hbatch, ?_⟩, ?_, ?_⟩
      · rw [hstep]
        exact htail.tiles
      · intro t ht
        rcases List.mem_cons.mp ht with rfl | ht
        · rfl
        · exact htail.skip t ht
      · intro t ht
        rcases List.mem_cons.mp ht with rfl | ht
        · exact Nat.dvd_mul_left_of_dvd h.aligned _
        · exact htail.aligned t ht

/-- The buffer is one call for all of it, or is divided into parts. -/
theorem tasksOf_spec {bufSize threadNum : Nat} (hbuf : bufSize ≤ 2 ^ 62)
    (hthread : threadNum < 2 ^ 62) :
    tasksOf bufSize threadNum = [⟨0, 0, bufSize⟩] ∨
      Parts 0 (tasksOf bufSize threadNum) bufSize := by
  rw [tasksOf]
  rcases computeTaskNumSize_spec hbuf hthread with h | ⟨taskNum, batchSize, h, hnum, hbatches⟩
  · rw [h]
    exact Or.inl rfl
  · rw [h]
    show (if taskNum = 1 then _ else _) = _ ∨ Parts 0 (if taskNum = 1 then _ else _) bufSize
    split
    · exact Or.inl rfl
    · right
      have hpos := hbatches.pos
      have hparts := prepareTasks_parts hbuf hnum hbatches (taskNum - 1) 0 (by omega)
      rw [Nat.zero_mul, show taskNum - 1 + 1 = taskNum by omega] at hparts
      exact hparts

/-! ## Writes in any order -/

theorem applyWrites_of_not_mem {ws : List (Nat × T)} {i : Nat} (h : i ∉ ws.map Prod.fst) :
    ∀ buf : Nat → T, applyWrites buf ws i = buf i := by
  induction ws with
  | nil =>
      intro buf
      rfl
  | cons w ws ih =>
      intro buf
      rw [List.map_cons, List.mem_cons, not_or] at h
      show applyWrites (Function.update buf w.1 w.2) ws i = buf i
      rw [ih h.2, Function.update_of_ne h.1]

/-- With one write for each index the order does not matter. -/
theorem applyWrites_of_mem {ws : List (Nat × T)} {i : Nat} {v : T}
    (hnodup : (ws.map Prod.fst).Nodup) (h : (i, v) ∈ ws) :
    ∀ buf : Nat → T, applyWrites buf ws i = v := by
  induction ws with
  | nil => cases h
  | cons w ws ih =>
      intro buf
      obtain ⟨hw, hws⟩ := List.nodup_cons.mp hnodup
      show applyWrites (Function.update buf w.1 w.2) ws i = v
      rcases List.mem_cons.mp h with rfl | h
      · rw [applyWrites_of_not_mem hw, Function.update_self]
      · exact ih hws h _

theorem map_fst_writesFrom (vs : List T) : ∀ i : Nat,
    (writesFrom i vs).map Prod.fst = List.range' i vs.length := by
  induction vs with
  | nil =>
      intro i
      rfl
  | cons v vs ih =>
      intro i
      rw [writesFrom, List.map_cons, ih, List.length_cons, List.range'_succ]

theorem mem_writesFrom {vs : List T} {v : T} : ∀ {i j : Nat}, vs[j]? = some v →
    (i + j, v) ∈ writesFrom i vs := by
  induction vs with
  | nil =>
      intro i j h
      cases h
  | cons w vs ih =>
      intro i j h
      rw [writesFrom]
      cases j with
      | zero =>
          cases h
          exact List.mem_cons_self ..
      | succ j =>
          have hmem := ih (i := i + 1) h
          rw [show i + 1 + j = i + (j + 1) by omega] at hmem
          exact List.mem_cons_of_mem _ hmem

theorem applyWrites_perm {vs : List T} {ws : List (Nat × T)} (h : ws.Perm (writesFrom 0 vs))
    (buf : Nat → T) (i : Nat) : applyWrites buf ws i = (vs[i]?).getD (buf i) := by
  have hkeys := h.map Prod.fst
  rw [map_fst_writesFrom] at hkeys
  cases hv : vs[i]? with
  | none =>
      have hlen := List.getElem?_eq_none_iff.mp hv
      refine applyWrites_of_not_mem ?_ buf
      rw [hkeys.mem_iff, List.mem_range'_1]
      omega
  | some v =>
      have hmem := mem_writesFrom (i := 0) hv
      rw [Nat.zero_add] at hmem
      exact applyWrites_of_mem (hkeys.nodup_iff.mpr List.nodup_range') (h.mem_iff.mpr hmem) buf

theorem length_generateRandoms (seed : UInt64) (skip size : Nat) (dis : Distribution T) :
    (generateRandoms seed skip size dis).length = size :=
  length_fill dis size none _

/-- A task writes each index of its part once, and no other. -/
theorem Task.map_fst_writes (seed : UInt64) (dis : Distribution T) (t : Task) :
    (t.writes seed dis).map Prod.fst = List.range' t.start t.size := by
  rw [Task.writes, map_fst_writesFrom, length_generateRandoms]

/-- Whatever the number of threads and the order of the writes, the buffer gets
what one loop puts there, and each index is of one task, which is the one that writes it. -/
theorem parallel_fills_as_single (seed randomDevice : UInt64) (hseed : seed ≠ 0)
    {bufSize threadNum : Nat} (hbuf : bufSize ≤ 2 ^ 62) (hthread : threadNum < 2 ^ 62)
    (dis : Distribution T) :
    (generateRandoms seed 0 bufSize dis).length = bufSize ∧
    (∀ ws, ws.Perm (generateRandomsParallel seed randomDevice bufSize threadNum dis) →
      ∀ (buf : Nat → T) (i : Nat),
        applyWrites buf ws i = ((generateRandoms seed 0 bufSize dis)[i]?).getD (buf i)) ∧
    (generateRandomsParallel seed randomDevice bufSize threadNum dis =
      (tasksOf bufSize threadNum).flatMap (Task.writes seed dis)) ∧
    (∀ t ∈ tasksOf bufSize threadNum,
      (t.writes seed dis).map Prod.fst = List.range' t.start t.size) ∧
    (tasksOf bufSize threadNum).Pairwise (fun t t' => t.start + t.size ≤ t'.start) ∧
    ∀ i, i < bufSize ↔ ∃ t ∈ tasksOf bufSize threadNum, t.start ≤ i ∧ i < t.start + t.size := by
  have hsingle : generateRandoms seed 0 bufSize dis =
      fill dis bufSize none (Philox.seek seed 0) := by
    rw [generateRandoms, ← Philox.discard_ofSeed seed (b := 0) (by decide)]
  have hwrites : generateRandomsParallel seed randomDevice bufSize threadNum dis =
      (tasksOf bufSize threadNum).flatMap (Task.writes seed dis) := by
    rw [generateRandomsParallel]
    simp only [if_neg hseed]
  refine ⟨length_generateRandoms seed 0 bufSize dis, ?_, hwrites,
    fun t _ => t.map_fst_writes seed dis, ?_⟩
  · intro ws hws buf i
    rw [hwrites] at hws
    rcases tasksOf_spec hbuf hthread with h | h
    · rw [h, List.flatMap_cons, List.flatMap_nil, List.append_nil] at hws
      exact applyWrites_perm hws buf i
    · rw [h.writes dis seed (b := 0) (by omega)] at hws
      rw [hsingle]
      exact applyWrites_perm hws buf i
  · rcases tasksOf_spec hbuf hthread with h | h
    · rw [h]
      refine ⟨List.pairwise_singleton _ _, fun i => ?_⟩
      simp
    · refine ⟨h.tiles.pairwise, fun i => ⟨h.tiles.exists_mem (Nat.zero_le i), ?_⟩⟩
      rintro ⟨t, ht, hstart, hend⟩
      have hbounds := h.tiles.bounds ht
      omega

/-- Two threads fill a buffer of 1030 numbers. -/
theorem parallel_fills_as_single_two :
    (7 : UInt64) ≠ 0 ∧ tasksOf 1030 2 = [⟨0, 0, 516⟩, ⟨516, 516, 514⟩] ∧
      (generateRandoms 7 0 1030 (.paired (fun u _ => u) (fun _ v => v))).length = 1030 ∧
      applyWrites (fun _ => (0 : UInt32))
        (generateRandomsParallel 7 0 1030 2 (.paired (fun u _ => u) (fun _ v => v))) 600 =
      ((generateRandoms 7 0 1030 (.paired (fun u _ => u) (fun _ v => v)))[600]?).getD 0 ∧
      ∀ t ∈ tasksOf 1030 2, (t.writes 7
        (.paired (fun u _ => u) (fun _ v => v) : Distribution UInt32)).map Prod.fst =
          List.range' t.start t.size := by
  obtain ⟨hlength, hfill, -, hparts, -⟩ := parallel_fills_as_single 7 0 (by decide)
    (by decide : 1030 ≤ 2 ^ 62) (by decide : 2 < 2 ^ 62)
    (.paired (fun u _ => u) (fun _ v => v) : Distribution UInt32)
  exact ⟨by decide, by decide, hlength, hfill _ (List.Perm.refl _) _ _, hparts⟩

end Ccbase.Testing
