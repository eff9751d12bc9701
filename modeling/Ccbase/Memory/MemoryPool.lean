import Ccbase.Lib.OrdMap
import Ccbase.Lib.SizeT
import Mathlib.Data.List.Induction
import Mathlib.Data.List.Infix
import Mathlib.Tactic.Common

/-!
# The books of `MemoryPool`

`MemoryPool` writes down the blocks that it gets from `malloc` in a map and looks
there for the ones that are given back. `AllocDeviceMem` uses its out-parameter as
the key, a `DeviceMemPtr *` that converts to `void *` like any pointer; the map is
asked for the blocks themselves.
-/

namespace Ccbase.Memory

open Ccbase.Lib

structure MemoryPool where
  allocInfos : OrdMap Nat Nat := .empty

namespace MemoryPool

/-- `out` is where the caller wants the address, and `addr` what `malloc` returns.
The size that is returned and the new value of `*out` come with the pool. -/
def allocDeviceMem (size out addr : Nat) (p : MemoryPool) : (Nat × Nat) × MemoryPool :=
  ((size, addr), { p with allocInfos := p.allocInfos.emplace out size })

def freeDeviceMem (addr : Nat) (p : MemoryPool) : Bool × MemoryPool :=
  if (p.allocInfos.find? addr).isSome then
    (true, { p with allocInfos := p.allocInfos.erase addr })
  else (false, p)

def reservedMemorySize (p : MemoryPool) : Nat :=
  p.allocInfos.entries.foldl (fun reserved info => addSize reserved info.2) 0

end MemoryPool

/-- The calls with what the system decides: the address of a new block. -/
inductive DeviceCall where
  | alloc (size out addr : Nat)
  | free (addr : Nat)
  deriving DecidableEq, Repr

/-- The pool, and the blocks that are allocated and not freed, by their address. -/
structure Books where
  pool : MemoryPool := {}
  live : OrdMap Nat Nat := .empty

namespace Books

def step (b : Books) : DeviceCall → Books
  | .alloc size out addr =>
      { pool := (b.pool.allocDeviceMem size out addr).2, live := b.live.insert addr size }
  | .free addr => { pool := (b.pool.freeDeviceMem addr).2, live := b.live.erase addr }

/-- The state after some calls. -/
def after (calls : List DeviceCall) : Books := calls.foldl step {}

/-- A new block is not at `nullptr` and not at a block that is in use. -/
def Fresh (b : Books) : DeviceCall → Prop
  | .alloc _ _ addr => addr ≠ 0 ∧ b.live.find? addr = none
  | .free _ => True

/-- The sizes of the live blocks. -/
def liveSize (b : Books) : Nat := b.live.sum fun _ size => size

/-- `FreeDeviceMem` accepts the live blocks and nothing else, and
`ReservedMemorySize` is their size. -/
structure Right (b : Books) : Prop where
  free : ∀ addr, (b.pool.freeDeviceMem addr).1 = true ↔ (b.live.find? addr).isSome
  reserved : b.pool.reservedMemorySize = b.liveSize

end Books

/-- The out-parameter lies at the block that is returned in it. -/
def DeviceCall.Keyed : DeviceCall → Prop
  | .alloc _ out addr => out = addr
  | .free _ => True

namespace MemoryPool

theorem freeDeviceMem_iff (p : MemoryPool) (addr : Nat) :
    (p.freeDeviceMem addr).1 = true ↔ (p.allocInfos.find? addr).isSome := by
  rw [freeDeviceMem]
  split
  · rename_i h
    exact ⟨fun _ => h, fun _ => rfl⟩
  · rename_i h
    exact ⟨nofun, fun hsome => absurd hsome h⟩

theorem reservedMemorySize_eq (p : MemoryPool) :
    p.reservedMemorySize = p.allocInfos.sum (fun _ size => size) % sizeBound := by
  have hfold : ∀ (infos : List (Nat × Nat)) (n : Nat),
      infos.foldl (fun reserved info => addSize reserved info.2) (n % sizeBound) =
        (n + (infos.map Prod.snd).sum) % sizeBound := by
    intro infos
    induction infos with
    | nil => exact fun n => rfl
    | cons info infos ih =>
        intro n
        rw [List.foldl_cons, addSize_mod, ih, List.map_cons, List.sum_cons, Nat.add_assoc]
  have h := hfold p.allocInfos.entries 0
  rw [Nat.zero_add] at h
  exact h

end MemoryPool

namespace Books

variable {b : Books} {calls : List DeviceCall} {c : DeviceCall}

theorem after_snoc (calls : List DeviceCall) (c : DeviceCall) :
    after (calls ++ [c]) = (after calls).step c := by
  rw [after, List.foldl_append]
  rfl

/-- A call that is keyed keeps the two maps equal. -/
theorem pool_step (h : b.pool.allocInfos = b.live) (hfresh : b.Fresh c) (hkeyed : c.Keyed) :
    (b.step c).pool.allocInfos = (b.step c).live := by
  cases c with
  | alloc size out addr =>
      obtain rfl : out = addr := hkeyed
      show b.pool.allocInfos.emplace out size = b.live.insert out size
      rw [h, OrdMap.emplace, hfresh.2]
      rfl
  | free addr =>
      show (b.pool.freeDeviceMem addr).2.allocInfos = b.live.erase addr
      rw [MemoryPool.freeDeviceMem]
      split
      · show b.pool.allocInfos.erase addr = _
        rw [h]
      · rename_i hnone
        rw [h] at hnone ⊢
        refine OrdMap.ext_find? fun addr' => ?_
        rw [OrdMap.find?_erase]
        split
        · rename_i heq
          rw [heq]
          exact Option.not_isSome_iff_eq_none.mp hnone
        · rfl

/-- With equal maps the books are right as long as the sizes fit a `size_t`. -/
theorem right_iff_of_eq (h : b.pool.allocInfos = b.live) : b.Right ↔ b.liveSize < sizeBound := by
  have hreserved : b.pool.reservedMemorySize = b.liveSize % sizeBound := by
    rw [MemoryPool.reservedMemorySize_eq, h]
    rfl
  constructor
  · intro hright
    rw [← hright.reserved, hreserved]
    exact Nat.mod_lt _ (by decide)
  · intro hlt
    refine ⟨fun addr => ?_, ?_⟩
    · rw [MemoryPool.freeDeviceMem_iff, h]
    · rw [hreserved, Nat.mod_eq_of_lt hlt]

/-- The books are right before and after a call only if it is keyed. -/
theorem keyed_of_right (hfresh : b.Fresh c) (hright : b.Right) (hright' : (b.step c).Right) :
    c.Keyed := by
  cases c with
  | alloc size out addr =>
      have hkeys := hright.free addr
      have hkeys' := hright'.free addr
      rw [MemoryPool.freeDeviceMem_iff] at hkeys hkeys'
      have hlive : ((b.step (.alloc size out addr)).live.find? addr).isSome := by
        show ((b.live.insert addr size).find? addr).isSome
        rw [OrdMap.find?_insert, if_pos rfl]
        rfl
      have hnone : b.pool.allocInfos.find? addr = none := by
        rw [← Option.not_isSome_iff_eq_none, hkeys, hfresh.2]
        exact Bool.false_ne_true
      have hpool : ((b.pool.allocInfos.emplace out size).find? addr).isSome := hkeys'.mpr hlive
      by_contra hne
      rw [OrdMap.emplace] at hpool
      split at hpool
      · rw [hnone] at hpool
        cases hpool
      · rw [OrdMap.find?_insert, if_neg (fun heq => hne heq.symm), hnone] at hpool
        cases hpool
  | free addr => trivial

/-- In every run of calls whose blocks are fresh: the books are right at all times
exactly if the out-parameter of each allocation lies at the block that it returns,
and the live blocks always fit a `size_t`. -/
theorem right_iff_keyed
    (hfresh : ∀ pre c, pre ++ [c] <+: calls → (after pre).Fresh c) :
    (∀ pre, pre <+: calls → (after pre).Right) ↔
      (∀ c ∈ calls, c.Keyed) ∧ ∀ pre, pre <+: calls → (after pre).liveSize < sizeBound := by
  have hmaps : (∀ c ∈ calls, c.Keyed) → ∀ pre, pre <+: calls →
      (after pre).pool.allocInfos = (after pre).live := by
    intro hkeyed pre
    induction pre using List.reverseRecOn with
    | nil => exact fun _ => rfl
    | append_singleton pre c ih =>
        intro hpre
        rw [after_snoc]
        have hc : c ∈ calls := hpre.subset (by simp)
        exact pool_step (ih ((List.prefix_append _ _).trans hpre)) (hfresh pre c hpre) (hkeyed c hc)
  constructor
  · intro hright
    have hkeyed : ∀ c ∈ calls, c.Keyed := by
      intro c hc
      obtain ⟨pre, post, rfl⟩ := List.append_of_mem hc
      have hpre : pre ++ [c] <+: pre ++ c :: post := ⟨post, by simp⟩
      have hbefore := hright pre (List.prefix_append _ _)
      have hafter := hright (pre ++ [c]) hpre
      rw [after_snoc] at hafter
      exact keyed_of_right (hfresh pre c hpre) hbefore hafter
    exact ⟨hkeyed, fun pre hpre => (right_iff_of_eq (hmaps hkeyed pre hpre)).mp (hright pre hpre)⟩
  · rintro ⟨hkeyed, hsize⟩ pre hpre
    exact (right_iff_of_eq (hmaps hkeyed pre hpre)).mpr (hsize pre hpre)

/-- A block whose address is stored in the block itself. -/
def keyedCalls : List DeviceCall := [.alloc 512 8 8, .free 8]

theorem right_iff_keyed_two : (after keyedCalls).Right := by
  refine (right_iff_keyed ?_).mpr ⟨?_, ?_⟩ keyedCalls (List.prefix_refl _)
  · intro pre c hpre
    match pre, hpre with
    | [], hpre =>
        obtain ⟨rfl, -⟩ := List.cons_prefix_cons.mp hpre
        exact ⟨by decide, rfl⟩
    | [_], hpre =>
        obtain ⟨-, hpre⟩ := List.cons_prefix_cons.mp hpre
        obtain ⟨rfl, -⟩ := List.cons_prefix_cons.mp hpre
        trivial
    | _ :: _ :: pre, hpre =>
        have hlen := hpre.length_le
        simp [keyedCalls] at hlen
  · simp [keyedCalls, DeviceCall.Keyed]
  · intro pre hpre
    rw [← List.mem_inits] at hpre
    revert pre
    decide

/-- The out-parameter of this allocation is at another address, as the one of the
pool is. -/
theorem free_of_new_block_fails :
    ¬ ∀ calls, (∀ pre c, pre ++ [c] <+: calls → (after pre).Fresh c) →
      ∀ pre, pre <+: calls → (after pre).Right := by
  intro hall
  have hright := hall [.alloc 512 16 8] ?_ _ (List.prefix_refl _)
  · exact absurd ((hright.free 8).mpr rfl) (by decide)
  · intro pre c hpre
    match pre, hpre with
    | [], hpre =>
        obtain ⟨rfl, -⟩ := List.cons_prefix_cons.mp hpre
        exact ⟨by decide, rfl⟩
    | _ :: pre, hpre =>
        have hlen := hpre.length_le
        simp at hlen

end Books

end Ccbase.Memory
