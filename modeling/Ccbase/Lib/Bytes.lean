import Mathlib.Data.List.Basic
import Mathlib.Tactic.Common
import Mathlib.Algebra.Order.Ring.Nat

/-!
# A memory of bytes

Numbers are stored with the lowest byte first. A read depends on the bytes it reads
only, and a write changes the bytes it writes only.
-/

namespace Ccbase.Lib

abbrev Memory := Nat → UInt8

/-- The lowest `n` bytes of a number. -/
def toBytes : Nat → Nat → List UInt8
  | 0, _ => []
  | n + 1, v => UInt8.ofNat v :: toBytes n (v / 256)

def ofBytes : List UInt8 → Nat
  | [] => 0
  | b :: bs => b.toNat + 256 * ofBytes bs

theorem toBytes_length (n v : Nat) : (toBytes n v).length = n := by
  induction n generalizing v with
  | zero => rfl
  | succ n ih => rw [toBytes, List.length_cons, ih]

theorem ofBytes_toBytes (n v : Nat) : ofBytes (toBytes n v) = v % 256 ^ n := by
  induction n generalizing v with
  | zero => rw [toBytes, ofBytes, Nat.pow_zero, Nat.mod_one]
  | succ n ih =>
      rw [toBytes, ofBytes, ih, Nat.pow_succ, Nat.mul_comm (256 ^ n) 256, Nat.mod_mul]
      rfl

namespace Memory

variable {m m' : Memory} {a n : Nat}

def readBytes (m : Memory) (a n : Nat) : List UInt8 := (List.range n).map fun i => m (a + i)

def writeBytes (m : Memory) (a : Nat) (bs : List UInt8) : Memory :=
  fun x => if a ≤ x then (bs[x - a]?).getD (m x) else m x

def read (m : Memory) (a n : Nat) : Nat := ofBytes (m.readBytes a n)

def write (m : Memory) (a n v : Nat) : Memory := m.writeBytes a (toBytes n v)

theorem writeBytes_outside {bs : List UInt8} {x : Nat} (hx : x < a ∨ a + bs.length ≤ x) :
    m.writeBytes a bs x = m x := by
  rw [writeBytes]
  split
  · rw [List.getElem?_eq_none (by omega), Option.getD_none]
  · rfl

theorem writeBytes_inside {bs : List UInt8} {i : Nat} (hi : i < bs.length) :
    m.writeBytes a bs (a + i) = bs[i] := by
  rw [writeBytes, if_pos (Nat.le_add_right a i), Nat.add_sub_cancel_left,
    List.getElem?_eq_getElem hi, Option.getD_some]

theorem readBytes_congr (h : ∀ x, a ≤ x → x < a + n → m' x = m x) :
    m'.readBytes a n = m.readBytes a n := by
  refine List.map_congr_left fun i hi => ?_
  rw [List.mem_range] at hi
  exact h (a + i) (Nat.le_add_right a i) (by omega)

theorem readBytes_writeBytes (bs : List UInt8) :
    (m.writeBytes a bs).readBytes a bs.length = bs := by
  refine List.ext_getElem ?_ fun i h₁ h₂ => ?_
  · rw [readBytes, List.length_map, List.length_range]
  · simp only [readBytes, List.getElem_map, List.getElem_range]
    exact writeBytes_inside h₂

theorem read_congr (h : ∀ x, a ≤ x → x < a + n → m' x = m x) : m'.read a n = m.read a n := by
  rw [read, read, readBytes_congr h]

theorem read_write (m : Memory) (a n v : Nat) : (m.write a n v).read a n = v % 256 ^ n := by
  have hread : (m.writeBytes a (toBytes n v)).readBytes a n = toBytes n v := by
    have := readBytes_writeBytes (m := m) (a := a) (toBytes n v)
    rwa [toBytes_length] at this
  rw [read, write, hread, ofBytes_toBytes]

theorem write_outside {v x : Nat} (hx : x < a ∨ a + n ≤ x) : m.write a n v x = m x :=
  writeBytes_outside (by rwa [toBytes_length])

/-- A read beside what was written. -/
theorem read_write_of_disjoint {b k v : Nat} (h : a + n ≤ b ∨ b + k ≤ a) :
    (m.write b k v).read a n = m.read a n :=
  read_congr fun x h₁ h₂ => write_outside (by omega)

end Memory

end Ccbase.Lib
