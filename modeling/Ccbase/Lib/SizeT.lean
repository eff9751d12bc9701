import Mathlib.Data.Nat.Notation
import Mathlib.Algebra.Order.Ring.Nat

/-!
# `size_t`

64-bit unsigned arithmetic on `Nat`: sums, differences and products wrap
around at `2 ^ 64`. Where a computation stays in range the wrapped operation
is the plain one, and that is the only way the proofs use it.
-/

namespace Ccbase.Lib

/-- One past the largest `size_t`. -/
def sizeBound : Nat := 2 ^ 64

def addSize (a b : Nat) : Nat := (a + b) % sizeBound

def subSize (a b : Nat) : Nat := (a + (sizeBound - b % sizeBound)) % sizeBound

def mulSize (a b : Nat) : Nat := a * b % sizeBound

theorem addSize_eq {a b : Nat} (h : a + b < sizeBound) : addSize a b = a + b :=
  Nat.mod_eq_of_lt h

theorem addSize_lt (a b : Nat) : addSize a b < sizeBound :=
  Nat.mod_lt _ (by decide)

theorem subSize_eq {a b : Nat} (ha : a < sizeBound) (hba : b ≤ a) :
    subSize a b = a - b := by
  have hb : b % sizeBound = b := Nat.mod_eq_of_lt (by omega)
  rw [subSize, hb, show a + (sizeBound - b) = (a - b) + sizeBound by omega,
    Nat.add_mod_right]
  exact Nat.mod_eq_of_lt (by omega)

/-- Taking `0` away changes nothing. -/
theorem subSize_zero {a : Nat} (ha : a < sizeBound) : subSize a 0 = a :=
  subSize_eq ha (Nat.zero_le a)

/-- A counter that is exact up to a multiple of `2 ^ 64` stays so when it is
raised, and when it is lowered by no more than what it counts. -/
theorem addSize_mod (a b : Nat) : addSize (a % sizeBound) b = (a + b) % sizeBound :=
  Nat.mod_add_mod ..

theorem subSize_mod {a b : Nat} (hba : b ≤ a) :
    subSize (a % sizeBound) b = (a - b) % sizeBound := by
  have hM : sizeBound = 18446744073709551616 := rfl
  unfold subSize
  rw [hM]
  omega

theorem mulSize_eq {a b : Nat} (h : a * b < sizeBound) : mulSize a b = a * b :=
  Nat.mod_eq_of_lt h

end Ccbase.Lib
