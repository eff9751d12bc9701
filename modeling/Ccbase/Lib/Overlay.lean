import Mathlib.Data.List.Basic

/-!
# Text in a bounded buffer

A buffer of which only the first `size` places may be written holds what fits of a text,
and behind it what it held before.
-/

namespace Ccbase.Lib

variable {α : Type}

variable {size : Nat} {buf out : List α}

end Ccbase.Lib
