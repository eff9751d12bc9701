import Ccbase.Lib.Bytes
import Ccbase.Lib.Tiling

/-!
# `malloc`, `realloc` and `free` of `copilot/lib.c`

The blocks of the pool are in one list, free or not, in the order of their addresses.
Each has its header in front of its payload, in the bytes of the pool: `size` in the
first 8 bytes, `free` in the next 4, and `next` in the last 8 of 24.

Addresses and `size_t` are numbers; what is stored is cut to the width of its field.
Loops along the list are `none` if they do not end within the rounds.
-/

namespace Ccbase.Copilot

open Ccbase.Lib

def memoryPoolSize : Nat := 1024 * 1024

/-- `sizeof(block_meta_t)`. -/
def metaSize : Nat := 24

section Fields

variable (m : Memory) (p : Nat)

def sizeOf : Nat := m.read p 8

def freeOf : Nat := m.read (p + 8) 4

def nextOf : Nat := m.read (p + 16) 8

def setSize (v : Nat) : Memory := m.write p 8 v

def setFree (v : Nat) : Memory := m.write (p + 8) 4 v

def setNext (v : Nat) : Memory := m.write (p + 16) 8 v

end Fields

/-- The memory and `free_list`, of which 0 is the null pointer. -/
structure Manager where
  mem : Memory
  freeList : Nat

section Code

-- the address of `memory_pool`
variable (memoryPool : Nat)

def initializeMemoryManager (s : Manager) : Manager where
  mem := setNext (setFree (setSize s.mem memoryPool (memoryPoolSize - metaSize)) memoryPool 1)
    memoryPool 0
  freeList := memoryPool

/-- What `malloc` begins with. -/
def Manager.initialized (s : Manager) : Manager :=
  if s.freeList = 0 then initializeMemoryManager memoryPool s else s

/-- The loop of `malloc`. -/
def findFit (m : Memory) (size : Nat) : Nat → Nat → Option Nat
  | 0, _ => none
  | rounds + 1, current =>
      if current = 0 then some 0
      else if freeOf m current ≠ 0 ∧ size ≤ sizeOf m current then some current
      else findFit m size rounds (nextOf m current)

/-- The rest of a block becomes a block of its own. -/
def splitBlock (m : Memory) (current size : Nat) : Memory :=
  let newBlock := current + metaSize + size
  let rest := sizeOf m current - size - metaSize
  let next := nextOf m current
  let m := setSize m newBlock rest
  let m := setFree m newBlock 1
  let m := setNext m newBlock next
  let m := setSize m current size
  setNext m current newBlock

def malloc (s : Manager) (size : Nat) : Option (Nat × Manager) :=
  let s := s.initialized memoryPool
  (findFit s.mem size memoryPoolSize s.freeList).map fun current =>
    if current = 0 then (0, s)
    else
      let m :=
        if (size + metaSize) % 2 ^ 64 < sizeOf s.mem current then splitBlock s.mem current size
        else s.mem
      (current + metaSize, { s with mem := setFree m current 0 })

/-- The loop of `free`. -/
def coalesce : Nat → Memory → Nat → Option Memory
  | 0, _, _ => none
  | rounds + 1, m, current =>
      if current = 0 then some m
      else
        let next := nextOf m current
        let m :=
          if freeOf m current ≠ 0 ∧ next ≠ 0 ∧ freeOf m next ≠ 0 then
            let m := setSize m current (sizeOf m current + (metaSize + sizeOf m next))
            setNext m current (nextOf m next)
          else m
        coalesce rounds m (nextOf m current)

def free (s : Manager) (ptr : Nat) : Option Manager :=
  if ptr = 0 then some s
  else
    (coalesce memoryPoolSize (setFree s.mem (ptr - metaSize) 1) s.freeList).map fun m =>
      { s with mem := m }

def realloc (s : Manager) (ptr size : Nat) : Option (Nat × Manager) :=
  if ptr = 0 then malloc memoryPool s size
  else
    let block := ptr - metaSize
    if size ≤ sizeOf s.mem block then some (ptr, s)
    else
      (malloc memoryPool s size).map fun (newPtr, s) =>
        if newPtr = 0 then (0, s)
        else
          let m := s.mem.writeBytes newPtr (s.mem.readBytes ptr (sizeOf s.mem block))
          (newPtr, { s with mem := setFree m block 1 })

end Code

/-! ## Headers and lists of blocks -/

structure Block where
  addr : Nat
  size : Nat
  free : Bool
  deriving DecidableEq, Repr

/-- The header of a block. -/
structure Header (m : Memory) (b : Block) (next : Nat) : Prop where
  size : sizeOf m b.addr = b.size
  free : freeOf m b.addr = if b.free then 1 else 0
  next : nextOf m b.addr = next

/-- Where a list of blocks begins; `z` is what is behind it. -/
def headAddr : List Block → Nat → Nat
  | [], z => z
  | b :: _, _ => b.addr

def Chain (m : Memory) : List Block → Nat → Prop
  | [], _ => True
  | b :: bs, z => Header m b (headAddr bs z) ∧ Chain m bs z

/-- The blocks fill `[lo, hi)`. -/
abbrev Blocks (lo : Nat) (bs : List Block) (hi : Nat) : Prop :=
  Tiles Block.addr (fun b => metaSize + b.size) lo bs hi

theorem piece_pos (b : Block) : 0 < metaSize + b.size := by
  rw [metaSize]
  omega

variable {m m' : Memory} {b : Block} {bs cs : List Block} {z next v : Nat}

theorem Header.congr (h : Header m b next)
    (heq : ∀ x, b.addr ≤ x → x < b.addr + metaSize → m' x = m x) : Header m' b next := by
  rw [metaSize] at heq
  refine ⟨?_, ?_, ?_⟩
  · rw [← h.size]
    exact Memory.read_congr fun x h₁ h₂ => heq x (by omega) (by omega)
  · rw [← h.free]
    exact Memory.read_congr fun x h₁ h₂ => heq x (by omega) (by omega)
  · rw [← h.next]
    exact Memory.read_congr fun x h₁ h₂ => heq x (by omega) (by omega)

theorem Header.setSize (h : Header m b next) (hv : v < 2 ^ 64) :
    Header (setSize m b.addr v) { b with size := v } next := by
  refine ⟨?_, ?_, ?_⟩
  · exact (Memory.read_write ..).trans (Nat.mod_eq_of_lt hv)
  · exact (Memory.read_write_of_disjoint (by dsimp only; omega)).trans h.free
  · exact (Memory.read_write_of_disjoint (by dsimp only; omega)).trans h.next

theorem Header.setFree (h : Header m b next) (f : Bool) :
    Header (setFree m b.addr (if f then 1 else 0)) { b with free := f } next := by
  refine ⟨?_, ?_, ?_⟩
  · exact (Memory.read_write_of_disjoint (by dsimp only; omega)).trans h.size
  · refine (Memory.read_write ..).trans ?_
    cases f <;> rfl
  · exact (Memory.read_write_of_disjoint (by dsimp only; omega)).trans h.next

theorem Header.setNext (h : Header m b next) (hv : v < 2 ^ 64) :
    Header (setNext m b.addr v) b v := by
  refine ⟨?_, ?_, ?_⟩
  · exact (Memory.read_write_of_disjoint (by omega)).trans h.size
  · exact (Memory.read_write_of_disjoint (by omega)).trans h.free
  · exact (Memory.read_write ..).trans (Nat.mod_eq_of_lt hv)

/-- A header that is written in full. -/
theorem Header.make (m : Memory) {p size next : Nat} (f : Bool) (hsize : size < 2 ^ 64)
    (hnext : next < 2 ^ 64) :
    Header (Copilot.setNext (Copilot.setFree (Copilot.setSize m p size) p (if f then 1 else 0))
      p next) ⟨p, size, f⟩ next := by
  refine ⟨?_, ?_, ?_⟩
  · refine (Memory.read_write_of_disjoint (by dsimp only; omega)).trans ?_
    refine (Memory.read_write_of_disjoint (by dsimp only; omega)).trans ?_
    exact (Memory.read_write ..).trans (Nat.mod_eq_of_lt hsize)
  · refine (Memory.read_write_of_disjoint (by dsimp only; omega)).trans ?_
    refine (Memory.read_write ..).trans ?_
    cases f <;> rfl
  · exact (Memory.read_write ..).trans (Nat.mod_eq_of_lt hnext)

section Outside

variable {p x : Nat}

theorem setSize_outside (hx : x < p ∨ p + metaSize ≤ x) : setSize m p v x = m x :=
  Memory.write_outside (by rw [metaSize] at hx; omega)

theorem setFree_outside (hx : x < p ∨ p + metaSize ≤ x) : setFree m p v x = m x :=
  Memory.write_outside (by rw [metaSize] at hx; omega)

theorem setNext_outside (hx : x < p ∨ p + metaSize ≤ x) : setNext m p v x = m x :=
  Memory.write_outside (by rw [metaSize] at hx; omega)

end Outside

theorem Chain.congr (h : Chain m bs z)
    (heq : ∀ b ∈ bs, ∀ x, b.addr ≤ x → x < b.addr + metaSize → m' x = m x) : Chain m' bs z := by
  induction bs with
  | nil => trivial
  | cons b bs ih =>
      exact ⟨h.1.congr (heq b List.mem_cons_self),
        ih h.2 fun c hc => heq c (List.mem_cons_of_mem b hc)⟩

theorem headAddr_append : headAddr (bs ++ cs) z = headAddr bs (headAddr cs z) := by
  cases bs <;> rfl

theorem chain_append : Chain m (bs ++ cs) z ↔ Chain m bs (headAddr cs z) ∧ Chain m cs z := by
  induction bs with
  | nil =>
      show Chain m cs z ↔ True ∧ Chain m cs z
      rw [true_and]
  | cons b bs ih =>
      show Header m b (headAddr (bs ++ cs) z) ∧ Chain m (bs ++ cs) z ↔ (_ ∧ _) ∧ _
      rw [ih, headAddr_append, and_assoc]

theorem Chain.mem (h : Chain m bs z) (hb : b ∈ bs) : ∃ next, Header m b next := by
  induction bs with
  | nil => cases hb
  | cons c bs ih =>
      rcases List.mem_cons.mp hb with rfl | hb
      · exact ⟨_, h.1⟩
      · exact ih h.2 hb

/-- Blocks in front of and behind `b` are not touched by writes to it. -/
theorem Chain.congr_around {L R : List Block} {lo hi : Nat} (hb : Blocks lo (L ++ b :: R) hi)
    (h : Chain m (L ++ b :: R) z)
    (heq : ∀ x, x < b.addr ∨ b.addr + metaSize + b.size ≤ x → m' x = m x) :
    Chain m' L b.addr ∧ Chain m' R z := by
  obtain ⟨hL, -, hR⟩ := hb.middle
  obtain ⟨hcL, -, hcR⟩ := chain_append.mp h
  refine ⟨hcL.congr fun c hc x h₁ h₂ => heq x ?_, hcR.congr fun c hc x h₁ h₂ => heq x ?_⟩
  · have := hL.bounds hc
    omega
  · have := hR.bounds hc
    omega

/-- A list is not longer than its headers fit. -/
theorem length_le_of_blocks {hi : Nat} : ∀ {bs : List Block} {lo : Nat}, Blocks lo bs hi →
    lo + bs.length * metaSize ≤ hi := by
  intro bs
  induction bs with
  | nil =>
      intro lo h
      have heq : lo = hi := h
      simp [heq]
  | cons b bs ih =>
      intro lo h
      have hrest : lo + (metaSize + b.size) + bs.length * metaSize ≤ hi := ih h.2.2
      rw [List.length_cons, Nat.add_mul]
      omega

end Ccbase.Copilot
