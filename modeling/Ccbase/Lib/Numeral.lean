import Mathlib.Algebra.Order.Ring.Nat
import Mathlib.Data.List.Basic

/-!
# Numerals

The digits of a number in a base, the highest first and without leading zeros, as
characters of any kind; and the number that such characters stand for. Reading gives
back what was written if each digit can be read.
-/

namespace Ccbase.Lib

variable {α : Type}

/-- The digits of `n`, in at most `rounds` steps. -/
def numeralIn (b : Nat) (digit : Nat → α) : Nat → Nat → List α
  | 0, _ => []
  | rounds + 1, n =>
      if n < b then [digit n] else numeralIn b digit rounds (n / b) ++ [digit (n % b)]

/-- The digits of `n` in base `b`. -/
def numeral (b : Nat) (digit : Nat → α) (n : Nat) : List α := numeralIn b digit (n + 1) n

/-- The number that has the digits of `n` and then those that are read. -/
def decodeFrom (b : Nat) (value : α → Option Nat) : Nat → List α → Option Nat
  | n, [] => some n
  | n, c :: cs => (value c).bind fun d => decodeFrom b value (b * n + d) cs

def decode (b : Nat) (value : α → Option Nat) (cs : List α) : Option Nat :=
  decodeFrom b value 0 cs

section Write

variable {b : Nat} {digit : Nat → α}

theorem numeralIn_rounds (hb : 1 < b) : ∀ {r r' n : Nat}, n < r → n < r' →
    numeralIn b digit r n = numeralIn b digit r' n := by
  intro r
  induction r with
  | zero =>
      intro r' n hr _
      omega
  | succ r ih =>
      intro r' n hr hr'
      obtain ⟨r', rfl⟩ : ∃ k, r' = k + 1 := ⟨r' - 1, by omega⟩
      rw [numeralIn, numeralIn]
      by_cases hn : n < b
      · rw [if_pos hn, if_pos hn]
      · have hlt : n / b < n := Nat.div_lt_self (by omega) hb
        rw [if_neg hn, if_neg hn, ih (show n / b < r by omega) (show n / b < r' by omega)]

theorem numeral_of_lt {n : Nat} (h : n < b) : numeral b digit n = [digit n] := if_pos h

theorem numeral_of_le (digit : Nat → α) (hb : 1 < b) {n : Nat} (h : b ≤ n) :
    numeral b digit n = numeral b digit (n / b) ++ [digit (n % b)] := by
  have hlt : n / b < n := Nat.div_lt_self (by omega) hb
  rw [numeral, numeralIn, if_neg (by omega),
    numeralIn_rounds hb hlt (Nat.lt_succ_self (n / b)), ← numeral]

theorem numeral_ne_nil (n : Nat) : numeral b digit n ≠ [] := by
  rw [numeral, numeralIn]
  split
  · exact List.cons_ne_nil _ _
  · exact List.append_ne_nil_of_right_ne_nil _ (List.cons_ne_nil _ _)

theorem length_numeral_pos (b : Nat) (digit : Nat → α) (n : Nat) :
    0 < (numeral b digit n).length :=
  List.length_pos_iff.mpr (numeral_ne_nil n)

theorem length_numeral_le (hb : 1 < b) : ∀ {k n : Nat}, 0 < k → n < b ^ k →
    (numeral b digit n).length ≤ k := by
  intro k
  induction k with
  | zero =>
      intro n hk _
      omega
  | succ k ih =>
      intro n _ hn
      by_cases hlt : n < b
      · rw [numeral_of_lt hlt, List.length_singleton]
        omega
      · have hdiv : n / b < b ^ k := by
          rw [Nat.div_lt_iff_lt_mul (by omega), ← Nat.pow_succ]
          exact hn
        have hk : 0 < k := by
          by_contra hk
          obtain rfl : k = 0 := by omega
          rw [Nat.pow_zero, Nat.div_lt_iff_lt_mul (by omega)] at hdiv
          omega
        rw [numeral_of_le digit hb (by omega), List.length_append, List.length_singleton]
        have := ih hk hdiv
        omega

/-- A number other than zero has no leading zero. -/
theorem head_numeral (hb : 1 < b) (hzero : ∀ d < b, d ≠ 0 → digit d ≠ digit 0) : ∀ {n : Nat},
    n ≠ 0 → (numeral b digit n).head? ≠ some (digit 0) := by
  intro n
  induction n using Nat.strong_induction_on with
  | _ n ih =>
      intro hn
      by_cases hlt : n < b
      · rw [numeral_of_lt hlt, List.head?_cons]
        exact fun h => hzero n hlt hn (Option.some.inj h)
      · have hdiv : n / b < n := Nat.div_lt_self (by omega) hb
        have hpos : n / b ≠ 0 := by
          rw [Nat.div_ne_zero_iff]
          omega
        rw [numeral_of_le digit hb (by omega), List.head?_append_of_ne_nil _ (numeral_ne_nil _)]
        exact ih (n / b) hdiv hpos

theorem forall_mem_numeral {P : α → Prop} (hb : 1 < b) (hdigit : ∀ d < b, P (digit d)) :
    ∀ {n : Nat}, ∀ c ∈ numeral b digit n, P c := by
  intro n
  induction n using Nat.strong_induction_on with
  | _ n ih =>
      intro c hc
      by_cases hlt : n < b
      · rw [numeral_of_lt hlt] at hc
        rw [List.mem_singleton.mp hc]
        exact hdigit n hlt
      · rw [numeral_of_le digit hb (by omega)] at hc
        rcases List.mem_append.mp hc with hc | hc
        · exact ih (n / b) (Nat.div_lt_self (by omega) hb) c hc
        · rw [List.mem_singleton.mp hc]
          exact hdigit _ (Nat.mod_lt _ (by omega))

end Write

section Read

variable {b : Nat} {digit : Nat → α} {value : α → Option Nat}

theorem decodeFrom_append (n : Nat) (cs ds : List α) :
    decodeFrom b value n (cs ++ ds) =
      (decodeFrom b value n cs).bind fun m => decodeFrom b value m ds := by
  induction cs generalizing n with
  | nil => rfl
  | cons c cs ih =>
      rw [List.cons_append, decodeFrom, decodeFrom, Option.bind_assoc]
      congr 1
      funext d
      exact ih (b * n + d)

/-- What is written is read. -/
theorem decode_numeral (hb : 1 < b) (hvalue : ∀ d < b, value (digit d) = some d) : ∀ (n : Nat),
    decode b value (numeral b digit n) = some n := by
  intro n
  induction n using Nat.strong_induction_on with
  | _ n ih =>
      rw [decode]
      by_cases hlt : n < b
      · rw [numeral_of_lt hlt, decodeFrom, hvalue n hlt, Option.bind_some, Nat.mul_zero,
          Nat.zero_add]
        rfl
      · have hprefix := ih (n / b) (Nat.div_lt_self (by omega) hb)
        rw [decode] at hprefix
        rw [numeral_of_le digit hb (by omega), decodeFrom_append, hprefix, Option.bind_some,
          decodeFrom,
          hvalue _ (Nat.mod_lt _ (by omega)), Option.bind_some, Nat.div_add_mod]
        rfl

end Read

end Ccbase.Lib
