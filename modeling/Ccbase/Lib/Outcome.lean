import Mathlib.Data.List.Basic

/-!
# Outcomes

A computation that may stop with an error: what is known of the value it ends in,
and of the error. With `fun e => e ≠ bad` for the errors this says that one error
does not happen, with `fun _ => False` for the values that an error does.
-/

namespace Ccbase.Lib

variable {ε α β : Type} {E : ε → Prop} {P Q : α → Prop}

/-- The computation ends in a value with `P` or in an error with `E`. -/
def Ends (E : ε → Prop) (P : α → Prop) : Except ε α → Prop
  | .ok a => P a
  | .error e => E e

namespace Ends

theorem of_ok {x : Except ε α} {a : α} (h : Ends E P x) (hx : x = .ok a) : P a := by
  rw [hx] at h
  exact h

theorem of_error {x : Except ε α} {e : ε} (h : Ends E P x) (hx : x = .error e) : E e := by
  rw [hx] at h
  exact h

/-- One error, and no value. -/
theorem eq_error {x : Except ε α} {e : ε} (h : Ends (fun d => d = e) (fun _ => False) x) :
    x = .error e := by
  cases x with
  | ok a => exact h.elim
  | error d => exact congrArg Except.error h

theorem mono {x : Except ε α} (h : Ends E P x) (himp : ∀ a, P a → Q a) : Ends E Q x := by
  cases x with
  | ok a => exact himp a h
  | error e => exact h

theorem bind {R : β → Prop} {x : Except ε α} {f : α → Except ε β} (h : Ends E P x)
    (hf : ∀ a, P a → Ends E R (f a)) : Ends E R (x >>= f) := by
  cases x with
  | ok a => exact hf a h
  | error e => exact h

theorem map {R : β → Prop} {x : Except ε α} {f : α → β} (h : Ends E P x)
    (hf : ∀ a, P a → R (f a)) : Ends E R (x.map f) := by
  cases x with
  | ok a => exact hf a h
  | error e => exact h

/-- What every step of a fold keeps. -/
theorem foldlM {f : α → β → Except ε α} {bs : List β}
    (hstep : ∀ a, P a → ∀ b ∈ bs, Ends E P (f a b)) :
    ∀ {a : α}, P a → Ends E P (bs.foldlM f a) := by
  induction bs with
  | nil =>
      intro a ha
      exact ha
  | cons b bs ih =>
      intro a ha
      rw [List.foldlM_cons]
      refine (hstep a ha b (List.mem_cons_self ..)).bind fun a' ha' => ?_
      exact ih (fun a ha b hb => hstep a ha b (List.mem_cons_of_mem _ hb)) ha'

end Ends

theorem ok_of_toOption {x : Except ε α} {a : α} (h : x.toOption = some a) : x = .ok a := by
  cases x with
  | ok a' => exact congrArg Except.ok (Option.some.inj h)
  | error e => cases h

end Ccbase.Lib
