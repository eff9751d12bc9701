import Ccbase.Libc.VsnprintfWidth

/-!
# The formats that `malloc_vsnprintf` reads to their end

A format is a list of pieces, characters and directives, each with the arguments that
it takes. The width and the precision of a directive are left out or `*`. With pieces
that trip no assertion and have matching arguments there is a round for every piece,
and the rounds get to the end of the format.
-/

namespace Ccbase.Libc

open Ccbase.Lib

/-! ## Pieces of a format -/

/-- The conversions. -/
def conversions : List Char := ['%', 'd', 'i', 'o', 'u', 'x', 'X', 'c', 's', 'p']

/-- A directive whose width and precision, if they are there, are the arguments of a
`*`; a precision can also be a `.` alone. -/
structure StarDirective where
  flags : List Char := []
  width : Option (BitVec 32) := none
  precision : Option (Option (BitVec 32)) := none
  modifier : List Char × Char := ([], '?')
  conv : Char
  args : List Arg := []

namespace StarDirective

def widthChars : Option (BitVec 32) → List Char
  | none => []
  | some _ => ['*']

def widthArgs : Option (BitVec 32) → List Arg
  | none => []
  | some v => [.int v]

def precisionChars : Option (Option (BitVec 32)) → List Char
  | none => []
  | some none => ['.']
  | some (some _) => ['.', '*']

def precisionArgs : Option (Option (BitVec 32)) → List Arg
  | some (some v) => [.int v]
  | _ => []

/-- The precision of the directive as the code has it. -/
def prec (d : StarDirective) : Int :=
  match d.precision with
  | some (some v) => v.toInt
  | _ => -1

/-- The directive in the format. -/
def chars (d : StarDirective) : List Char :=
  '%' :: (d.flags ++ (widthChars d.width ++ (precisionChars d.precision ++
    (d.modifier.1 ++ [d.conv]))))

/-- All of its arguments. -/
def allArgs (d : StarDirective) : List Arg :=
  widthArgs d.width ++ (precisionArgs d.precision ++ d.args)

/-- The arguments are the ones that the conversion reads; a string is terminated or as
long as the precision. -/
def Matches (d : StarDirective) : Prop :=
  match d.conv with
  | '%' => d.args = []
  | 'd' | 'i' => ∃ val, getArgNumeric d.modifier.2 false d.args = some (val, [])
  | 'c' => ∃ v, d.args = [.int v]
  | 's' => ∃ s, d.args = [.string s] ∧ if d.prec < 0 then nul ∈ s else d.prec.toNat ≤ s.length
  | 'p' => ∃ v, d.args = [.long v]
  | _ => ∃ val, getArgNumeric d.modifier.2 true d.args = some (val, [])

/-- No assertion fails, and the arguments match. -/
structure Valid (d : StarDirective) : Prop where
  flags : ∀ c ∈ d.flags, c ∈ ['#', '-', ' ', '+']
  once : ∀ c ∈ ['-', ' ', '+'], d.flags.count c ≤ 1
  width : ∀ v ∈ d.width, v.toInt ≠ -2 ^ 31
  modifier : d.modifier ∈ lengthModifiers
  conv : d.conv ∈ conversions
  plain : d.conv = 'c' ∨ d.conv = 's' → d.modifier.2 = '?' ∨ d.modifier.2 = 'l'
  args : d.Matches

end StarDirective

/-! ## The stages of a round -/

/-- What the later stages of a round need to know of the flags and the width. -/
structure Directive.Unpadded (d : Directive) : Prop where
  padZero : d.padZero = false
  prec : d.prec = -1
  len : d.len = '?'

/-- Each of the flags but `#` is there at most once. -/
theorem flags_append {tail : List Char} (htail : ∀ c ∈ tail.head?, c ∉ ['#', '-', ' ', '+']) :
    ∀ {fs : List Char} {d : Directive}, (∀ c ∈ fs, c ∈ ['#', '-', ' ', '+']) →
      (∀ c ∈ ['-', ' ', '+'], fs.count c ≤ 1) →
      (d.leftJustify = true → '-' ∉ fs) → (d.plusSpace = true → ' ' ∉ fs) →
      (d.plusPlus = true → '+' ∉ fs) → d.Unpadded →
      ∃ d' : Directive, flags (fs ++ tail) d = some (tail, d') ∧ d'.Unpadded := by
  intro fs
  induction fs with
  | nil =>
      intro d _ _ _ _ _ hd
      refine ⟨d, ?_, hd⟩
      cases tail with
      | nil => rfl
      | cons c f =>
          have hc := htail c rfl
          simp only [List.mem_cons, List.not_mem_nil, or_false, not_or] at hc
          rw [List.nil_append, flags, if_neg hc.1, if_neg hc.2.1, if_neg hc.2.2.1, if_neg hc.2.2.2]
  | cons c fs ih =>
      intro d hfs honce hleft hspace hplus hd
      have hfs' : ∀ x ∈ fs, x ∈ ['#', '-', ' ', '+'] :=
        fun x hx => hfs x (List.mem_cons_of_mem c hx)
      have honce' : ∀ x ∈ ['-', ' ', '+'], fs.count x ≤ 1 := fun x hx =>
        Nat.le_trans (List.count_le_count_cons ..) (honce x hx)
      have hnot : ∀ {x : Char}, x ∈ ['-', ' ', '+'] → c = x → x ∉ fs := by
        rintro x hx rfl
        have hcount := honce c hx
        rw [List.count_cons_self] at hcount
        exact List.count_eq_zero.mp (by omega)
      have hmore : ∀ {x : Char} {b : Bool}, (b = true → x ∉ c :: fs) → b = true → x ∉ fs :=
        fun h hb hx => h hb (List.mem_cons_of_mem c hx)
      have hnew : ∀ {x : Char} {b : Bool}, (b = true → x ∉ c :: fs) → c = x → b ≠ true := by
        rintro x b h rfl hb
        exact h hb (List.mem_cons_self ..)
      have hc := hfs c (List.mem_cons_self ..)
      simp only [List.mem_cons, List.not_mem_nil, or_false] at hc
      rw [List.cons_append, Libc.flags]
      rcases hc with rfl | rfl | rfl | rfl
      · rw [if_pos rfl]
        exact ih hfs' honce' (hmore hleft) (hmore hspace) (hmore hplus)
          ⟨hd.padZero, hd.prec, hd.len⟩
      · rw [if_neg (by decide), if_pos rfl, if_neg (hnew hleft rfl)]
        exact ih hfs' honce' (fun _ => hnot (by decide) rfl) (hmore hspace) (hmore hplus)
          ⟨hd.padZero, hd.prec, hd.len⟩
      · rw [if_neg (by decide), if_neg (by decide), if_pos rfl, if_neg (hnew hspace rfl)]
        exact ih hfs' honce' (hmore hleft) (fun _ => hnot (by decide) rfl) (hmore hplus)
          ⟨hd.padZero, hd.prec, hd.len⟩
      · rw [if_neg (by decide), if_neg (by decide), if_neg (by decide), if_pos rfl,
          if_neg (hnew hplus rfl)]
        exact ih hfs' honce' (hmore hleft) (hmore hspace) (fun _ => hnot (by decide) rfl)
          ⟨hd.padZero, hd.prec, hd.len⟩

namespace StarDirective

variable {uninit : List Char → Int}

/-- What can stand behind the flags is none of them. -/
def starters : List Char := ['*', '.', 'l', 'q', 'j', 't', 'z'] ++ conversions

theorem forall_mem_of_all {p : Char → Prop} [DecidablePred p] {cs : List Char}
    (h : cs.all (fun c => decide (p c)) = true) : ∀ c ∈ cs, p c :=
  fun c hc => of_decide_eq_true (List.all_eq_true.mp h c hc)

theorem labelWidth_star {w : Option (BitVec 32)} (hw : ∀ v ∈ w, v.toInt ≠ -2 ^ 31) {c : Char}
    (hc : c ∈ starters.tail) (f : List Char) (ap : List Arg) {d : Directive} (hd : d.Unpadded) :
    ∃ d' : Directive, labelWidth uninit (widthChars w ++ c :: f) (widthArgs w ++ ap) d =
      some (c :: f, ap, d') ∧ d'.Unpadded := by
  cases w with
  | none =>
      refine ⟨d, ?_, hd⟩
      have hstar : c ≠ '*' := ne_of_mem_of_not_mem hc (by decide)
      have hzero : c ≠ '0' := ne_of_mem_of_not_mem hc (by decide)
      have hdigits : ∀ x ∈ starters.tail, x ∉ decimalDigits := forall_mem_of_all (by decide)
      rw [widthChars, List.nil_append, labelWidth]
      dsimp only
      rw [if_neg hstar, if_neg hzero, if_neg (hdigits c hc)]
      rfl
  | some v =>
      rw [widthChars, widthArgs, List.singleton_append, List.singleton_append, labelWidth]
      dsimp only
      rw [if_pos rfl, vaInt, Option.bind_some]
      dsimp only
      rw [if_neg (hw v rfl)]
      split
      · exact ⟨_, rfl, hd.padZero, hd.prec, hd.len⟩
      · exact ⟨_, rfl, hd.padZero, hd.prec, hd.len⟩

theorem precision_star (d : StarDirective) {c : Char} (hc : c ∈ starters.tail.tail) (f : List Char)
    (ap : List Arg) {d' : Directive} (hd : d'.Unpadded) :
    ∃ d'' : Directive, Libc.precision uninit (precisionChars d.precision ++ c :: f)
      (precisionArgs d.precision ++ ap) d' = some (c :: f, ap, d'') ∧
      d''.padZero = false ∧ d''.prec = d.prec ∧ d''.len = '?' := by
  have hstar : c ≠ '*' := ne_of_mem_of_not_mem hc (by decide)
  have hdot : c ≠ '.' := ne_of_mem_of_not_mem hc (by decide)
  have hdigits : ∀ x ∈ starters.tail.tail, x ∉ decimalDigits := forall_mem_of_all (by decide)
  rw [StarDirective.prec]
  cases d.precision with
  | none =>
      refine ⟨d', ?_, hd.padZero, hd.prec, hd.len⟩
      rw [precisionChars, List.nil_append]
      unfold Libc.precision
      dsimp only
      rw [if_neg hdot]
      rfl
  | some p =>
      cases p with
      | none =>
          refine ⟨d', ?_, hd.padZero, hd.prec, hd.len⟩
          simp only [precisionChars, List.singleton_append, Libc.precision]
          rw [if_pos trivial, if_neg hstar, if_neg (hdigits c hc)]
          rfl
      | some v =>
          exact ⟨{ d' with prec := v.toInt }, rfl, hd.padZero, rfl, hd.len⟩

theorem labelLength_modifier {m : List Char × Char} (hm : m ∈ lengthModifiers) {c : Char}
    (hc : c ∈ conversions) (f : List Char) {d : Directive} (hlen : d.len = '?') :
    labelLength (m.1 ++ c :: f) d = (c :: f, { d with len := m.2 }) := by
  have hl : c ≠ 'l' := ne_of_mem_of_not_mem hc (by decide)
  have hrest : ¬ (c = 'q' ∨ c = 'j' ∨ c = 't' ∨ c = 'z') := by
    have hall : ∀ x ∈ conversions, ¬ (x = 'q' ∨ x = 'j' ∨ x = 't' ∨ x = 'z') :=
      forall_mem_of_all (by decide)
    exact hall c hc
  simp only [lengthModifiers, List.mem_cons, List.not_mem_nil, or_false] at hm
  rcases hm with rfl | rfl | rfl | rfl | rfl | rfl | rfl
  · rw [List.nil_append, labelLength, if_neg hl, if_neg hrest, ← hlen]
  · rw [List.singleton_append, labelLength, if_pos rfl, if_neg]
    simp [hl]
  all_goals rfl

end StarDirective

/-! ## The conversion -/

theorem vaInt_append {args ap₀ : List Arg} {v : BitVec 32} (h : vaInt args = some (v, ap₀))
    (ap : List Arg) : vaInt (args ++ ap) = some (v, ap₀ ++ ap) := by
  unfold vaInt at h
  split at h
  · cases h
    rfl
  · cases h

theorem vaLong_append {args ap₀ : List Arg} {v : BitVec 64} (h : vaLong args = some (v, ap₀))
    (ap : List Arg) : vaLong (args ++ ap) = some (v, ap₀ ++ ap) := by
  unfold vaLong at h
  split at h
  · cases h
    rfl
  · cases h

theorem map_int_append {args ap₀ : List Arg} {val : Int} (g : BitVec 32 → Int)
    (h : (vaInt args).map (fun p => (g p.1, p.2)) = some (val, ap₀)) (ap : List Arg) :
    (vaInt (args ++ ap)).map (fun p => (g p.1, p.2)) = some (val, ap₀ ++ ap) := by
  obtain ⟨⟨v, ap₁⟩, hv, heq⟩ := Option.map_eq_some_iff.mp h
  cases heq
  rw [vaInt_append hv ap]
  rfl

theorem map_long_append {args ap₀ : List Arg} {val : Int} (g : BitVec 64 → Int)
    (h : (vaLong args).map (fun p => (g p.1, p.2)) = some (val, ap₀)) (ap : List Arg) :
    (vaLong (args ++ ap)).map (fun p => (g p.1, p.2)) = some (val, ap₀ ++ ap) := by
  obtain ⟨⟨v, ap₁⟩, hv, heq⟩ := Option.map_eq_some_iff.mp h
  cases heq
  rw [vaLong_append hv ap]
  rfl

/-- The arguments behind the ones that are read do not matter. -/
theorem getArgNumeric_append {len : Char} {high : Bool} {args ap₀ : List Arg} {val : Int}
    (h : getArgNumeric len high args = some (val, ap₀)) (ap : List Arg) :
    getArgNumeric len high (args ++ ap) = some (val, ap₀ ++ ap) := by
  unfold getArgNumeric at h ⊢
  dsimp only at h ⊢
  split at h
  · exact map_int_append (fun v => v.toInt) h ap
  · exact map_int_append (fun v => (v.toNat : Int)) h ap
  · exact map_long_append (fun v => v.toInt) h ap
  · exact map_long_append (fun v => (v.toNat : Int)) h ap
  · exact map_long_append (fun v => v.toInt) h ap
  · exact map_long_append (fun v => (v.toNat : Int)) h ap
  · exact map_long_append (fun v => v.toInt) h ap
  · exact map_long_append (fun v => (v.toNat : Int)) h ap
  · exact map_long_append (fun v => v.toInt) h ap
  · exact map_long_append (fun v => v.toInt) h ap
  · exact map_long_append (fun v => (v.toNat : Int)) h ap
  · exact map_long_append (fun v => (v.toNat : Int)) h ap
  · cases h
    rfl

namespace StarDirective

/-- A number is read and written. -/
theorem number_star {d : Directive} {val : Int} {args ap : List Arg} {len : Char} {high : Bool}
    (hval : getArgNumeric len high args = some (val, [])) {text : Int → Option Result}
    (htext : ∃ s, text val = some s) (f : List Char) :
    ∃ item, number (getArgNumeric len high (args ++ ap)) text f d = some (item, f, ap) ∧
      item.InBounds := by
  obtain ⟨s, hs⟩ := htext
  refine ⟨.number s d, ?_, trivial⟩
  rw [number, getArgNumeric_append hval ap, Option.bind_some, List.nil_append]
  dsimp only
  rw [hs]
  rfl

theorem d2s_some (val : Int) (sign : Char) :
    ∃ s, d2s (toSigned val) sign (newBuf d2sBufsize) = some s := by
  obtain ⟨hlo, hhi⟩ := toSigned_bounds val
  obtain ⟨s', i, slen, hs, -⟩ := d2s_spec (show u2sBufsize ≤ (newBuf d2sBufsize).length by decide)
    hlo hhi sign
  exact ⟨_, hs⟩

theorem o2s_some (val : Int) (altForm : Bool) :
    ∃ s, o2s (toUnsigned val) altForm (newBuf o2sBufsize) = some s := by
  obtain ⟨s', i, slen, hs, -⟩ := o2s_spec (show u2sBufsize ≤ (newBuf o2sBufsize).length by decide)
    (toUnsigned_lt val) altForm
  exact ⟨_, hs⟩

theorem u2s_some (val : Int) : ∃ s, u2s (toUnsigned val) 10 false (newBuf u2sBufsize) = some s := by
  obtain ⟨s', i, slen, hs, -⟩ := u2s_spec (show u2sBufsize ≤ (newBuf u2sBufsize).length by decide)
    (toUnsigned_lt val) (show 2 ≤ 10 by decide) (by decide) false
  exact ⟨_, hs⟩

theorem x2s_some (val : Int) (altForm uppercase : Bool) :
    ∃ s, x2s (toUnsigned val) altForm uppercase (newBuf x2sBufsize) = some s := by
  obtain ⟨s', i, slen, hs, -⟩ := x2s_spec (show u2sBufsize ≤ (newBuf x2sBufsize).length by decide)
    (toUnsigned_lt val) altForm uppercase
  exact ⟨_, hs⟩

theorem strlen_some {s : List Char} (h : nul ∈ s) :
    ∃ slen, strlen s = some slen ∧ slen ≤ s.length := by
  cases hslen : strlen s with
  | none => exact absurd h (List.idxOf?_eq_none_iff.mp hslen)
  | some slen =>
      obtain ⟨hlt, -⟩ := List.idxOf?_eq_some_iff.mp hslen
      exact ⟨slen, rfl, hlt.le⟩

theorem conversion_star {d : StarDirective} (h : d.Valid) (f : List Char) (ap : List Arg)
    {d' : Directive} (hpad : d'.padZero = false) (hprec : d'.prec = d.prec)
    (hlen : d'.len = d.modifier.2) :
    ∃ item, conversion (d.conv :: f) (d.args ++ ap) d' = some (item, f, ap) ∧
      item.InBounds := by
  have hargs := h.args
  have hconv := h.conv
  have hplain := h.plain
  rw [Matches] at hargs
  rw [conversion, hlen]
  generalize d.conv = c at hargs hconv hplain ⊢
  simp only [conversions, List.mem_cons, List.not_mem_nil, or_false] at hconv
  rcases hconv with rfl | rfl | rfl | rfl | rfl | rfl | rfl | rfl | rfl | rfl
  · have hnil : d.args = [] := hargs
    exact ⟨.char '%', by rw [hnil]; rfl, trivial⟩
  · obtain ⟨val, hval⟩ := hargs
    rw [if_neg (by decide), if_pos (Or.inl rfl), if_neg (by rw [hpad]; exact Bool.false_ne_true)]
    exact number_star hval (d2s_some val _) f
  · obtain ⟨val, hval⟩ := hargs
    rw [if_neg (by decide), if_pos (Or.inr rfl), if_neg (by rw [hpad]; exact Bool.false_ne_true)]
    exact number_star hval (d2s_some val _) f
  · obtain ⟨val, hval⟩ := hargs
    rw [if_neg (by decide), if_neg (by decide), if_pos rfl]
    exact number_star hval (o2s_some val _) f
  · obtain ⟨val, hval⟩ := hargs
    rw [if_neg (by decide), if_neg (by decide), if_neg (by decide), if_pos rfl]
    exact number_star hval (u2s_some val) f
  · obtain ⟨val, hval⟩ := hargs
    rw [if_neg (by decide), if_neg (by decide), if_neg (by decide), if_neg (by decide),
      if_pos (Or.inl rfl)]
    exact number_star hval (x2s_some val _ _) f
  · obtain ⟨val, hval⟩ := hargs
    rw [if_neg (by decide), if_neg (by decide), if_neg (by decide), if_neg (by decide),
      if_pos (Or.inr rfl)]
    exact number_star hval (x2s_some val _ _) f
  · obtain ⟨v, hv⟩ := hargs
    rw [hv, if_neg (by decide), if_neg (by decide), if_neg (by decide), if_neg (by decide),
      if_neg (by decide), if_pos rfl, if_pos (hplain (Or.inl rfl))]
    exact ⟨_, rfl, Nat.le_add_left 1 1⟩
  · obtain ⟨str, hstr, hlong⟩ := hargs
    rw [hstr, if_neg (by decide), if_neg (by decide), if_neg (by decide), if_neg (by decide),
      if_neg (by decide), if_neg (by decide), if_pos rfl, if_pos (hplain (Or.inr rfl)), hprec,
      List.singleton_append, vaString, Option.bind_some]
    dsimp only
    by_cases hneg : d.prec < 0
    · rw [if_pos hneg] at hlong ⊢
      obtain ⟨slen, hslen, hle⟩ := strlen_some hlong
      rw [hslen]
      exact ⟨_, rfl, hle⟩
    · rw [if_neg hneg] at hlong ⊢
      exact ⟨_, rfl, hlong⟩
  · obtain ⟨v, hv⟩ := hargs
    have hval : getArgNumeric 'p' false d.args = some ((v.toNat : Int), []) := by rw [hv]; rfl
    rw [if_neg (by decide), if_neg (by decide), if_neg (by decide), if_neg (by decide),
      if_neg (by decide), if_neg (by decide), if_neg (by decide), if_pos rfl]
    exact number_star hval (x2s_some _ _ _) f

/-! ## A round for every piece -/

/-- What stands behind a part of the directive begins with one of the characters of the
parts that can follow. -/
theorem modifier_starts {m : List Char × Char} (hm : m ∈ lengthModifiers) {c : Char}
    (hc : c ∈ conversions) (f : List Char) :
    ∃ x g, m.1 ++ c :: f = x :: g ∧ x ∈ starters.tail.tail := by
  have hall : ∀ x ∈ conversions, x ∈ starters.tail.tail := forall_mem_of_all (by decide)
  simp only [lengthModifiers, List.mem_cons, List.not_mem_nil, or_false] at hm
  rcases hm with rfl | rfl | rfl | rfl | rfl | rfl | rfl
  · exact ⟨c, f, rfl, hall c hc⟩
  all_goals exact ⟨_, _, rfl, by decide⟩

theorem precision_starts (p : Option (Option (BitVec 32))) {c : Char}
    (hc : c ∈ starters.tail.tail) (f : List Char) :
    ∃ x g, precisionChars p ++ c :: f = x :: g ∧ x ∈ starters.tail := by
  cases p with
  | none => exact ⟨c, f, rfl, List.mem_of_mem_tail hc⟩
  | some p =>
      cases p with
      | none => exact ⟨_, _, rfl, by decide⟩
      | some v => exact ⟨_, _, rfl, by decide⟩

theorem width_starts (w : Option (BitVec 32)) {c : Char} (hc : c ∈ starters.tail)
    (f : List Char) : ∃ x g, widthChars w ++ c :: f = x :: g ∧ x ∈ starters := by
  cases w with
  | none => exact ⟨c, f, rfl, List.mem_of_mem_tail hc⟩
  | some v => exact ⟨_, _, rfl, by decide⟩

/-- A directive is one round, which takes its arguments. -/
theorem round {d : StarDirective} (h : d.Valid) (f : List Char) (ap : List Arg) :
    ∃ item, Round uninit (d.chars ++ f, d.allArgs ++ ap) item (f, ap) ∧ item.InBounds := by
  obtain ⟨x₃, g₃, h₃, hx₃⟩ := modifier_starts h.modifier h.conv f
  obtain ⟨x₂, g₂, h₂, hx₂⟩ := precision_starts d.precision hx₃ g₃
  obtain ⟨x₁, g₁, h₁, hx₁⟩ := width_starts d.width hx₂ g₂
  have hflag : ∀ x ∈ (x₁ :: g₁).head?, x ∉ ['#', '-', ' ', '+'] := by
    have hall : ∀ x ∈ starters, x ∉ ['#', '-', ' ', '+'] := forall_mem_of_all (by decide)
    intro x hx
    cases hx
    exact hall x₁ hx₁
  have hstart : Directive.Unpadded {} := ⟨rfl, rfl, rfl⟩
  obtain ⟨d₁, hd₁, hun₁⟩ := flags_append hflag h.flags h.once (fun hset => by cases hset)
    (fun hset => by cases hset) (fun hset => by cases hset) hstart
  obtain ⟨d₂, hd₂, hun₂⟩ := @labelWidth_star uninit _ h.width _ hx₂ g₂
    (precisionArgs d.precision ++ (d.args ++ ap)) _ hun₁
  obtain ⟨d₃, hd₃, hpad, hprec, hlen⟩ := @precision_star uninit d _ hx₃ g₃ (d.args ++ ap) _ hun₂
  have hd₄ := labelLength_modifier h.modifier h.conv f hlen
  obtain ⟨d₄, hmod⟩ : ∃ d₄ : Directive, d₄ = { d₃ with len := d.modifier.2 } := ⟨_, rfl⟩
  rw [← hmod] at hd₄
  obtain ⟨item, hitem, hin⟩ := conversion_star h f ap (show d₄.padZero = false by rw [hmod, hpad])
    (show d₄.prec = d.prec by rw [hmod, hprec]) (by rw [hmod])
  have hformat : d.chars ++ f = '%' :: (d.flags ++ x₁ :: g₁) := by
    rw [← h₁, ← h₂, ← h₃, chars]
    simp only [List.cons_append, List.append_assoc, List.nil_append]
  have hargs : d.allArgs ++ ap =
      widthArgs d.width ++ (precisionArgs d.precision ++ (d.args ++ ap)) := by
    rw [allArgs, List.append_assoc, List.append_assoc]
  refine ⟨item, ?_, hin⟩
  rw [Round, hformat, hargs, next]
  dsimp only
  rw [if_pos rfl, hd₁, Option.bind_some]
  dsimp only
  rw [← h₁, hd₂, Option.bind_some]
  dsimp only
  rw [← h₂, hd₃, Option.bind_some]
  dsimp only
  rw [← h₃, hd₄]
  exact hitem

end StarDirective

/-- A character or a directive. -/
inductive Piece where
  | char (c : Char)
  | directive (d : StarDirective)

namespace Piece

def chars : Piece → List Char
  | .char c => [c]
  | .directive d => d.chars

def args : Piece → List Arg
  | .char _ => []
  | .directive d => d.allArgs

/-- A character is no `%`. -/
def Valid : Piece → Prop
  | .char c => c ≠ '%'
  | .directive d => d.Valid

end Piece

/-- The rounds read a format of such pieces to its end, whatever arguments are behind
the ones of the pieces, and what they append can be read. -/
theorem run_pieces {uninit : List Char → Int} (ap : List Arg) : ∀ {ps : List Piece},
    (∀ p ∈ ps, p.Valid) → ∃ items,
      Run (Round uninit) (ps.flatMap Piece.chars, ps.flatMap Piece.args ++ ap) items ([], ap) ∧
        ∀ item ∈ items, item.InBounds := by
  intro ps
  induction ps with
  | nil =>
      intro _
      exact ⟨[], .nil, fun item hmem => by cases hmem⟩
  | cons p ps ih =>
      intro hvalid
      obtain ⟨items, hrun, hitems⟩ := ih fun p' hp => hvalid p' (List.mem_cons_of_mem p hp)
      have hp := hvalid p (List.mem_cons_self ..)
      rw [List.flatMap_cons, List.flatMap_cons, List.append_assoc]
      have hfirst : ∃ item, Round uninit (p.chars ++ ps.flatMap Piece.chars,
          p.args ++ (ps.flatMap Piece.args ++ ap)) item
          (ps.flatMap Piece.chars, ps.flatMap Piece.args ++ ap) ∧ item.InBounds := by
        cases p with
        | char c => exact ⟨.char c, round_char hp _ _, trivial⟩
        | directive d => exact StarDirective.round hp _ _
      obtain ⟨item, hround, hin⟩ := hfirst
      refine ⟨[item] ++ items, (Run.single hround).append hrun, ?_⟩
      intro item' hmem
      rcases List.mem_append.mp hmem with hmem | hmem
      · rw [List.mem_singleton.mp hmem]
        exact hin
      · exact hitems item' hmem

end Ccbase.Libc
