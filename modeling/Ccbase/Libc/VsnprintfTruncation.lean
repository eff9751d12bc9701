import Ccbase.Lib.Overlay
import Ccbase.Libc.Vsnprintf

/-!
# The output of `malloc_vsnprintf` for every buffer size

The rounds of the outer loop do not depend on the buffer: the items that they append
have a text, and the buffer holds what fits of it.
-/

namespace Ccbase.Libc

open Ccbase.Lib

/-! ## Rounds -/

/-- What is left of the format and of the arguments. -/
abbrev Cursor := List Char × List Arg

/-- A round that appends `item`. -/
def Round (uninit : List Char → Int) (s : Cursor) (item : Item) (s' : Cursor) : Prop :=
  next uninit s.1 s.2 = some (item, s')

theorem length_flags {f : List Char} : ∀ {d : Directive} {f' : List Char} {d' : Directive},
    flags f d = some (f', d') → f'.length ≤ f.length := by
  induction f with
  | nil =>
      intro d f' d' h
      cases h
      exact Nat.le_refl _
  | cons c f ih =>
      intro d f' d' h
      rw [flags] at h
      split_ifs at h
      · exact (ih h).trans (Nat.le_succ _)
      · exact (ih h).trans (Nat.le_succ _)
      · exact (ih h).trans (Nat.le_succ _)
      · exact (ih h).trans (Nat.le_succ _)
      · cases h
        exact Nat.le_refl _

theorem length_labelWidth {uninit : List Char → Int} {f f' : List Char} {ap ap' : List Arg}
    {d d' : Directive} (h : labelWidth uninit f ap d = some (f', ap', d')) :
    f'.length ≤ f.length := by
  cases f with
  | nil =>
      cases h
      exact Nat.le_refl _
  | cons c f =>
      rw [labelWidth] at h
      dsimp only at h
      split_ifs at h
      · obtain ⟨⟨v, ap₁⟩, -, h⟩ := Option.bind_eq_some_iff.mp h
        dsimp only at h
        split_ifs at h
        · cases h
          exact Nat.le_succ _
        · cases h
          exact Nat.le_succ _
      all_goals
        cases h
        exact Nat.le_refl _

theorem length_precision {uninit : List Char → Int} {f f' : List Char} {ap ap' : List Arg}
    {d d' : Directive} (h : precision uninit f ap d = some (f', ap', d')) :
    f'.length ≤ f.length := by
  cases f with
  | nil =>
      cases h
      exact Nat.le_refl _
  | cons c f =>
      simp only [precision] at h
      split_ifs at h
      · cases f with
        | nil =>
            cases h
            exact Nat.le_succ _
        | cons c f =>
            dsimp only at h
            split_ifs at h
            · obtain ⟨⟨v, ap₁⟩, -, h⟩ := Option.map_eq_some_iff.mp h
              cases h
              exact (Nat.le_succ _).trans (Nat.le_succ _)
            all_goals
              cases h
              exact Nat.le_succ _
      · cases h
        exact Nat.le_refl _

theorem length_labelLength (f : List Char) (d : Directive) :
    (labelLength f d).1.length ≤ f.length := by
  cases f with
  | nil => exact Nat.le_refl _
  | cons c f =>
      rw [labelLength]
      split_ifs
      · show f.tail.length ≤ f.length + 1
        rw [List.length_tail]
        omega
      · exact Nat.le_succ _
      · exact Nat.le_succ _
      · exact Nat.le_refl _

/-- The text of a number lies in the buffer that it was written into. -/
def InBuffer (s : Result) : Prop := s.2.2 ≤ (s.1.drop s.2.1).length

theorem Written.inBuffer {s s' : List Char} {i slen : Nat} {cs : List Char}
    (h : Written s s' i slen cs) (hs : u2sBufsize ≤ s.length) : InBuffer (s', i, slen) := by
  have htext := h.textAt hs
  show slen ≤ (s'.drop i).length
  have hlen : ((s'.drop i).take slen).length = slen := (congrArg List.length htext).trans h.length
  rw [List.length_take] at hlen
  omega

theorem toSigned_bounds (x : Int) : -2 ^ 63 ≤ toSigned x ∧ toSigned x < 2 ^ 63 :=
  ⟨Int.le_bmod (by decide), Int.bmod_lt (by decide)⟩

theorem toUnsigned_lt (x : Int) : toUnsigned x < 2 ^ 64 := by
  rw [toUnsigned]
  omega

theorem inBuffer_d2s {x : Int} {sign : Char} {s : Result}
    (h : d2s (toSigned x) sign (newBuf d2sBufsize) = some s) : InBuffer s := by
  have hlen : u2sBufsize ≤ (newBuf d2sBufsize).length := by decide
  obtain ⟨hlo, hhi⟩ := toSigned_bounds x
  obtain ⟨s', i, slen, hs, hw⟩ := d2s_spec hlen hlo hhi sign
  cases h.symm.trans hs
  exact hw.inBuffer hlen

theorem inBuffer_o2s {x : Int} {altForm : Bool} {s : Result}
    (h : o2s (toUnsigned x) altForm (newBuf o2sBufsize) = some s) : InBuffer s := by
  have hlen : u2sBufsize ≤ (newBuf o2sBufsize).length := by decide
  obtain ⟨s', i, slen, hs, hw⟩ := o2s_spec hlen (toUnsigned_lt x) altForm
  cases h.symm.trans hs
  exact hw.inBuffer hlen

theorem inBuffer_u2s {x : Int} {s : Result}
    (h : u2s (toUnsigned x) 10 false (newBuf u2sBufsize) = some s) : InBuffer s := by
  have hlen : u2sBufsize ≤ (newBuf u2sBufsize).length := by decide
  obtain ⟨s', i, slen, hs, hw⟩ := u2s_spec hlen (toUnsigned_lt x) (show 2 ≤ 10 by decide)
    (by decide) false
  cases h.symm.trans hs
  exact hw.inBuffer hlen

theorem inBuffer_x2s {x : Int} {altForm uppercase : Bool} {s : Result}
    (h : x2s (toUnsigned x) altForm uppercase (newBuf x2sBufsize) = some s) : InBuffer s := by
  have hlen : u2sBufsize ≤ (newBuf x2sBufsize).length := by decide
  obtain ⟨s', i, slen, hs, hw⟩ := x2s_spec hlen (toUnsigned_lt x) altForm uppercase
  cases h.symm.trans hs
  exact hw.inBuffer hlen

/-- What a conversion does to the cursor, and that its number is all there. -/
structure Converted (f f' : List Char) (item : Item) : Prop where
  length : f'.length ≤ f.length
  number : ∀ s d, item = .number s d → InBuffer s

theorem converted_number {c : Char} {f f' : List Char} {d : Directive} {item : Item}
    {val : Option (Int × List Arg)} {text : Int → Option Result} {ap' : List Arg}
    (h : number val text f d = some (item, f', ap'))
    (htext : ∀ val s, text val = some s → InBuffer s) : Converted (c :: f) f' item := by
  obtain ⟨⟨val, ap₁⟩, -, h⟩ := Option.bind_eq_some_iff.mp h
  obtain ⟨s, hs, h⟩ := Option.map_eq_some_iff.mp h
  cases h
  refine ⟨Nat.le_succ _, fun s' d' heq => ?_⟩
  cases heq
  exact htext val s hs

theorem conversion_converted {f f' : List Char} {ap ap' : List Arg} {d : Directive} {item : Item}
    (h : conversion f ap d = some (item, f', ap')) : Converted f f' item := by
  cases f with
  | nil =>
      cases h
      exact ⟨Nat.le_refl _, fun s d heq => by cases heq⟩
  | cons c f =>
      rw [conversion] at h
      by_cases hpercent : c = '%'
      · rw [if_pos hpercent] at h
        cases h
        exact ⟨Nat.le_succ _, fun s d heq => by cases heq⟩
      rw [if_neg hpercent] at h
      by_cases hd : c = 'd' ∨ c = 'i'
      · rw [if_pos hd] at h
        by_cases hzero : d.padZero = true
        · rw [if_pos hzero] at h
          cases h
        · rw [if_neg hzero] at h
          exact converted_number h fun _ _ => inBuffer_d2s
      rw [if_neg hd] at h
      by_cases ho : c = 'o'
      · rw [if_pos ho] at h
        exact converted_number h fun _ _ => inBuffer_o2s
      rw [if_neg ho] at h
      by_cases hu : c = 'u'
      · rw [if_pos hu] at h
        exact converted_number h fun _ _ => inBuffer_u2s
      rw [if_neg hu] at h
      by_cases hx : c = 'x' ∨ c = 'X'
      · rw [if_pos hx] at h
        exact converted_number h fun _ _ => inBuffer_x2s
      rw [if_neg hx] at h
      by_cases hc : c = 'c'
      · rw [if_pos hc] at h
        by_cases hlen : d.len = '?' ∨ d.len = 'l'
        · rw [if_pos hlen] at h
          obtain ⟨⟨v, ap₁⟩, -, h⟩ := Option.map_eq_some_iff.mp h
          cases h
          exact ⟨Nat.le_succ _, fun s d heq => by cases heq⟩
        · rw [if_neg hlen] at h
          cases h
      rw [if_neg hc] at h
      by_cases hs : c = 's'
      · rw [if_pos hs] at h
        by_cases hlen : d.len = '?' ∨ d.len = 'l'
        · rw [if_pos hlen] at h
          obtain ⟨⟨s, ap₁⟩, -, h⟩ := Option.bind_eq_some_iff.mp h
          obtain ⟨slen, -, h⟩ := Option.map_eq_some_iff.mp h
          cases h
          exact ⟨Nat.le_succ _, fun s d heq => by cases heq⟩
        · rw [if_neg hlen] at h
          cases h
      rw [if_neg hs] at h
      by_cases hp : c = 'p'
      · rw [if_pos hp] at h
        exact converted_number h fun _ _ => inBuffer_x2s
      · rw [if_neg hp] at h
        cases h
        exact ⟨Nat.le_refl _, fun s d heq => by cases heq⟩

/-- A round takes a character of the format at least. -/
theorem Round.converted {uninit : List Char → Int} {s s' : Cursor} {item : Item}
    (h : Round uninit s item s') : s'.1.length < s.1.length ∧
      ∀ r d, item = .number r d → InBuffer r := by
  obtain ⟨f, ap⟩ := s
  cases f with
  | nil => cases h
  | cons c f =>
      simp only [Round, next] at h
      split_ifs at h
      · obtain ⟨⟨f₁, d₁⟩, h₁, h⟩ := Option.bind_eq_some_iff.mp h
        obtain ⟨⟨f₂, ap₂, d₂⟩, h₂, h⟩ := Option.bind_eq_some_iff.mp h
        obtain ⟨⟨f₃, ap₃, d₃⟩, h₃, h⟩ := Option.bind_eq_some_iff.mp h
        have hconv := conversion_converted h
        have hlen : s'.1.length ≤ f.length := calc
          s'.1.length ≤ (labelLength f₃ d₃).1.length := hconv.length
          _ ≤ f₃.length := length_labelLength f₃ d₃
          _ ≤ f₂.length := length_precision h₃
          _ ≤ f₁.length := length_labelWidth h₂
          _ ≤ f.length := length_flags h₁
        exact ⟨Nat.lt_succ_of_le hlen, hconv.number⟩
      · cases h
        exact ⟨Nat.lt_succ_self _, fun s d heq => by cases heq⟩

/-! ## The text of an item -/

/-- What `APPEND_PADDED_S` makes of a text. -/
def Directive.padded (d : Directive) (text : List Char) : List Char :=
  let n := padLen text.length d.width
  if d.leftJustify then text ++ List.replicate n ' '
  else List.replicate n (if d.padZero then '0' else ' ') ++ text

def Item.text : Item → List Char
  | .nothing => []
  | .char c => [c]
  | .number s d => d.padded (textAt s)
  | .string s slen d => d.padded (s.take slen)

/-- As many characters as are to be printed can be read. -/
def Item.InBounds : Item → Prop
  | .string s slen _ => slen ≤ s.length
  | _ => True

section Shown

variable {size : Nat} {str : List Char}

end Shown

/-! ## A run of the loop -/

/-- The text of all items. -/
def texts (items : List Item) : List Char := items.flatMap Item.text

end Ccbase.Libc
