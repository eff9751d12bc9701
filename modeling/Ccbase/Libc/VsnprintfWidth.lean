import Ccbase.Libc.VsnprintfTruncation

/-!
# Literal widths in the directives of `malloc_vsnprintf`

A width that is written out in the format is not read: the digits and what follows of the
directive are copied to the output, and its argument is left to the next directive.
-/

namespace Ccbase.Libc

open Ccbase.Lib

/-- The length modifiers, and the `len` that each sets. -/
def lengthModifiers : List (List Char × Char) :=
  [([], '?'), (['l'], 'l'), (['l', 'l'], 'q'), (['q'], 'q'), (['j'], 'j'), (['t'], 't'),
    (['z'], 'z')]

/-- A directive `%[-]w` with a length modifier and a conversion. -/
structure WidthDirective where
  leftJustify : Bool
  width : Nat
  modifier : List Char × Char
  conv : Char
  width_pos : 0 < width
  modifier_mem : modifier ∈ lengthModifiers
  conv_mem : conv ∈ ['d', 'u', 'x', 's']

namespace WidthDirective

/-- The directive from its width on. -/
def afterFlags (d : WidthDirective) : List Char :=
  textOf 10 false d.width ++ (d.modifier.1 ++ [d.conv])

/-- The directive in the format. -/
def chars (d : WidthDirective) : List Char :=
  '%' :: ((if d.leftJustify then ['-'] else []) ++ d.afterFlags)

/-- The text of the argument. -/
def converted (d : WidthDirective) (arg : Arg) : Option (List Char) :=
  if d.conv = 'd' then
    (getArgNumeric d.modifier.2 false [arg]).map fun (val, _) =>
      signOf (toSigned val) '-' ++ textOf 10 false (toSigned val).natAbs
  else if d.conv = 'u' then
    (getArgNumeric d.modifier.2 true [arg]).map fun (val, _) => textOf 10 false (toUnsigned val)
  else if d.conv = 'x' then
    (getArgNumeric d.modifier.2 true [arg]).map fun (val, _) => textOf 16 false (toUnsigned val)
  else
    (vaString [arg]).bind fun (s, _) => (strlen s).map fun slen => s.take slen

/-- A text with spaces up to the width. -/
def pad (d : WidthDirective) (text : List Char) : List Char :=
  let spaces := List.replicate (d.width - text.length) ' '
  if d.leftJustify then text ++ spaces else spaces ++ text

end WidthDirective

/-- The rounds from the cursor `s` get to the end of the directive `d`, with `post` and the
arguments `ap` behind it, and append the text of `arg` up to there, which is padded. -/
def Serves (uninit : List Char → Int) (d : WidthDirective) (s : Cursor) (before : List Item)
    (arg : Arg) (post : List Char) (ap : List Arg) : Prop :=
  ∃ text items, d.converted arg = some text ∧ Run (Round uninit) s items (post, ap) ∧
    texts items = texts before ++ d.pad text

/-! ## The rounds at such a directive -/

theorem round_char {uninit : List Char → Int} {c : Char} (h : c ≠ '%') (f : List Char)
    (ap : List Arg) : Round uninit (c :: f, ap) (.char c) (f, ap) := if_neg h

/-- Characters of the format are copied. -/
theorem run_chars {uninit : List Char → Int} {cs : List Char} (h : ∀ c ∈ cs, c ≠ '%')
    (f : List Char) (ap : List Arg) :
    Run (Round uninit) (cs ++ f, ap) (cs.map .char) (f, ap) := by
  induction cs with
  | nil => exact .nil
  | cons c cs ih =>
      have hfirst : Run (Round uninit) (c :: cs ++ f, ap) [.char c] (cs ++ f, ap) :=
        Run.single (round_char (h c List.mem_cons_self) (cs ++ f) ap)
      exact hfirst.append (ih fun c' hc => h c' (List.mem_cons_of_mem _ hc))

theorem texts_chars (cs : List Char) : texts (cs.map .char) = cs := by
  induction cs with
  | nil => rfl
  | cons c cs ih =>
      show c :: texts (cs.map .char) = c :: cs
      rw [ih]

/-- The cursor stays in front of a digit. -/
theorem round_digit {uninit : List Char → Int} {c : Char} (hc : c ∈ decimalDigits.tail)
    (left : Bool) (f : List Char) (ap : List Arg) :
    Round uninit ('%' :: ((if left then ['-'] else []) ++ c :: f), ap) .nothing (c :: f, ap) := by
  simp only [decimalDigits, List.tail_cons, List.mem_cons, List.not_mem_nil, or_false] at hc
  cases left with
  | false => rcases hc with rfl | rfl | rfl | rfl | rfl | rfl | rfl | rfl | rfl <;> rfl
  | true => rcases hc with rfl | rfl | rfl | rfl | rfl | rfl | rfl | rfl | rfl <;> rfl

namespace WidthDirective

variable {uninit : List Char → Int} (d : WidthDirective)

theorem digits_mem : ∀ c ∈ textOf 10 false d.width, c ∈ decimalDigits :=
  forall_mem_numeral (by decide) (by decide)

theorem afterFlags_eq : ∃ c f, d.afterFlags = c :: f ∧ c ∈ decimalDigits.tail := by
  have hhead := head_textOf (show 2 ≤ 10 by decide) (by decide) false d.width_pos.ne'
  cases htext : textOf 10 false d.width with
  | nil => exact absurd htext (numeral_ne_nil _)
  | cons c cs =>
      have hmem : c ∈ decimalDigits := d.digits_mem c (by rw [htext]; exact List.mem_cons_self)
      rw [htext, List.head?_cons] at hhead
      refine ⟨c, cs ++ (d.modifier.1 ++ [d.conv]), by rw [afterFlags, htext]; rfl, ?_⟩
      rcases List.mem_cons.mp hmem with rfl | htail
      · exact absurd rfl hhead
      · exact htail

theorem afterFlags_ne_percent : ∀ c ∈ d.afterFlags, c ≠ '%' := by
  intro c hc
  rcases List.mem_append.mp hc with hc | hc
  · exact ne_of_mem_of_not_mem (d.digits_mem c hc) (by decide)
  · rcases List.mem_append.mp hc with hc | hc
    · have hmodifiers : ∀ m ∈ lengthModifiers, '%' ∉ m.1 := by decide
      exact ne_of_mem_of_not_mem hc (hmodifiers d.modifier d.modifier_mem)
    · rw [List.mem_singleton.mp hc]
      exact ne_of_mem_of_not_mem d.conv_mem (by decide)

/-- The directive is copied from its width on, and no argument is taken. -/
theorem run_copied (post : List Char) (ap : List Arg) :
    Run (Round uninit) (d.chars ++ post, ap) (.nothing :: d.afterFlags.map .char) (post, ap) := by
  obtain ⟨c, f, heq, hc⟩ := d.afterFlags_eq
  have hfirst : Round uninit (d.chars ++ post, ap) .nothing (d.afterFlags ++ post, ap) := by
    rw [chars, heq, List.cons_append, List.append_assoc]
    exact round_digit hc d.leftJustify (f ++ post) ap
  exact (Run.single hfirst).append (run_chars d.afterFlags_ne_percent post ap)

end WidthDirective

/-! ## No such directive is served -/

theorem round_det {uninit : List Char → Int} (s : Cursor) (item₁ : Item) (s₁ : Cursor)
    (item₂ : Item) (s₂ : Cursor) (h₁ : Round uninit s item₁ s₁) (h₂ : Round uninit s item₂ s₂) :
    item₁ = item₂ ∧ s₁ = s₂ := by
  cases h₁.symm.trans h₂
  exact ⟨rfl, rfl⟩

theorem run_length {uninit : List Char → Int} {s s' : Cursor} {items : List Item}
    (h : Run (Round uninit) s items s') : s = s' ∨ s'.1.length < s.1.length := by
  induction h with
  | nil => exact .inl rfl
  | snoc _ hround ih =>
      have hshort := hround.converted.1
      rcases ih with rfl | ih
      · exact .inr hshort
      · exact .inr (hshort.trans ih)

/-- Two runs that come to the same place of the format have taken the same arguments. -/
theorem run_args {uninit : List Char → Int} {s : Cursor} {items items' : List Item}
    {f : List Char} {ap ap' : List Arg} (h : Run (Round uninit) s items (f, ap))
    (h' : Run (Round uninit) s items' (f, ap')) : ap = ap' := by
  rcases Run.comparable round_det h h' with ⟨ms, hms⟩ | ⟨ms, hms⟩
  · rcases run_length hms with heq | hlt
    · exact congrArg Prod.snd heq
    · exact absurd hlt (Nat.lt_irrefl _)
  · rcases run_length hms with heq | hlt
    · exact (congrArg Prod.snd heq).symm
    · exact absurd hlt (Nat.lt_irrefl _)

theorem not_serves {uninit : List Char → Int} {s : Cursor} {before : List Item}
    {d : WidthDirective} {arg : Arg} {post : List Char} {ap : List Arg}
    (hreach : Run (Round uninit) s before (d.chars ++ post, arg :: ap)) :
    ¬ Serves uninit d s before arg post ap := by
  rintro ⟨text, items, -, hserved, -⟩
  have hargs := congrArg List.length (run_args (hreach.append (d.run_copied post _)) hserved)
  rw [List.length_cons] at hargs
  omega

/-- A directive with a literal width that is reached in a run is never served: it is copied from
its width on, and its argument is there for the next directive. -/
theorem literal_width_never_served {uninit : List Char → Int} {s : Cursor} {before : List Item}
    {d : WidthDirective} {arg : Arg} {post : List Char} {ap : List Arg}
    (hreach : Run (Round uninit) s before (d.chars ++ post, arg :: ap)) :
    ¬ Serves uninit d s before arg post ap ∧
      ∃ items, Run (Round uninit) s items (post, arg :: ap) ∧
        texts items = texts before ++ d.afterFlags := by
  refine ⟨not_serves hreach, _, hreach.append (d.run_copied post _), ?_⟩
  have hcopied : texts (.nothing :: d.afterFlags.map .char) = d.afterFlags :=
    texts_chars d.afterFlags
  rw [texts, List.flatMap_append]
  exact congrArg (texts before ++ ·) hcopied

/-- `%5d`. -/
def fiveWide : WidthDirective where
  leftJustify := false
  width := 5
  modifier := ([], '?')
  conv := 'd'
  width_pos := by decide
  modifier_mem := by decide
  conv_mem := by decide

theorem literal_width_never_served_five :
    ¬ Serves (fun _ => 0) fiveWide (fiveWide.chars, [.int 42]) [] (.int 42) [] [] ∧
      ∃ items, Run (Round fun _ => 0) (fiveWide.chars, [.int 42]) items ([], [.int 42]) ∧
        texts items = ['5', 'd'] :=
  literal_width_never_served
    (show Run (Round fun _ => 0) _ [] (fiveWide.chars ++ [], [.int 42]) from .nil)

theorem five_wide_copied : fiveWide.chars = ['%', '5', 'd'] ∧
    fiveWide.converted (.int 42) = some ['4', '2'] ∧
    ¬ Serves (fun _ => 0) fiveWide (fiveWide.chars, [.int 42]) [] (.int 42) [] [] ∧
    mallocVsnprintf (fun _ => 0) (newBuf 8) 8 fiveWide.chars [.int 42] =
      some (['5', 'd'] ++ newBuf 6, 2) :=
  ⟨by decide, by decide,
    not_serves (show Run (Round fun _ => 0) _ [] (fiveWide.chars ++ [], [.int 42]) from .nil),
    by decide⟩

end Ccbase.Libc
