import Ccbase.Lib.Numeral

/-!
# `u2s`, `d2s`, `o2s` and `x2s` of `ms_print.cc`

A number is written into a buffer from its end, digit by digit, and a sign or a prefix
in front of it. A pointer into the buffer is an index; a call is `none` if it writes
outside of the buffer, or an assertion fails.

Characters are bytes. `uintmax_t` is a number below `2 ^ 64`, `intmax_t` one from
`-2 ^ 63` on and below `2 ^ 63`.
-/

namespace Ccbase.Libc

open Ccbase.Lib

def nul : Char := '\x00'

/-- `U2S_BUFSIZE`. -/
def u2sBufsize : Nat := 65

/-- `s[i] = c`. -/
def storeChar (s : List Char) (i : Nat) (c : Char) : Option (List Char) :=
  if i < s.length then some (s.set i c) else none

def decimalDigits : List Char := ['0', '1', '2', '3', '4', '5', '6', '7', '8', '9']

def hexDigits (uppercase : Bool) : List Char :=
  decimalDigits ++
    if uppercase then ['A', 'B', 'C', 'D', 'E', 'F'] else ['a', 'b', 'c', 'd', 'e', 'f']

def allDigits (uppercase : Bool) : List Char :=
  decimalDigits ++
    if uppercase then
      ['A', 'B', 'C', 'D', 'E', 'F', 'G', 'H', 'I', 'J', 'K', 'L', 'M', 'N', 'O', 'P', 'Q', 'R',
        'S', 'T', 'U', 'V', 'W', 'X', 'Y', 'Z']
    else
      ['a', 'b', 'c', 'd', 'e', 'f', 'g', 'h', 'i', 'j', 'k', 'l', 'm', 'n', 'o', 'p', 'q', 'r',
        's', 't', 'u', 'v', 'w', 'x', 'y', 'z']

/-- The loop of `u2s`, from index `i` down. -/
def digitLoop (digit : Nat → Char) (rest : Nat → Nat) :
    Nat → Nat → List Char → Option (List Char × Nat)
  | 0, _, _ => none
  | i + 1, x, s =>
      (storeChar s i (digit x)).bind fun s =>
        let x := rest x
        if x > 0 then digitLoop digit rest i x s else some (s, i)

/-- The buffer, the place of the text in it and `*slen_p`. -/
abbrev Result := List Char × Nat × Nat

def u2s (x base : Nat) (uppercase : Bool) (s : List Char) : Option Result :=
  (storeChar s (u2sBufsize - 1) nul).bind fun s =>
    let loop :=
      if base = 10 then
        digitLoop (fun x => decimalDigits.getD (x % 10) nul) (fun x => x / 10) (u2sBufsize - 1) x s
      else if base = 16 then
        digitLoop (fun x => (hexDigits uppercase).getD (x &&& 0xf) nul) (fun x => x >>> 4)
          (u2sBufsize - 1) x s
      else if base ≥ 2 ∧ base ≤ 36 then
        digitLoop (fun x => (allDigits uppercase).getD (x % base) nul) (fun x => x / base)
          (u2sBufsize - 1) x s
      else none
    loop.map fun (s, i) => (s, i, u2sBufsize - 1 - i)

/-- `s--`, `(*slen_p)++` and `*s = c`. -/
def prepend (r : Result) (c : Char) : Option Result :=
  match r with
  | (_, 0, _) => none
  | (s, i + 1, slen) => (storeChar s i c).map fun s => (s, i, slen + 1)

/-- An `intmax_t` as a `uintmax_t`. -/
def toUnsigned (x : Int) : Nat := (x % 2 ^ 64).toNat

/-- `-x` of an `intmax_t`. -/
def negate (x : Int) : Int := (-x).bmod (2 ^ 64)

def d2s (x : Int) (sign : Char) (s : List Char) : Option Result :=
  let neg := decide (x < 0)
  let x := if neg then negate x else x
  (u2s (toUnsigned x) 10 false s).bind fun r =>
    let sign := if neg then '-' else sign
    if sign = '-' ∧ !neg then some r
    else if sign = '-' ∨ sign = ' ' ∨ sign = '+' then prepend r sign
    else some r

def o2s (x : Nat) (altForm : Bool) (s : List Char) : Option Result :=
  (u2s x 8 false s).bind fun r =>
    if altForm ∧ r.1[r.2.1]? ≠ some '0' then prepend r '0' else some r

def x2s (x : Nat) (altForm uppercase : Bool) (s : List Char) : Option Result :=
  (u2s x 16 uppercase s).bind fun (s, i, slen) =>
    if altForm then
      if i < 2 then none
      else
        (storeChar s (i - 2) '0').bind fun s =>
          (storeChar s (i - 1) (if uppercase then 'X' else 'x')).map fun s => (s, i - 2, slen + 2)
    else some (s, i, slen)

/-! ## Digits -/

/-- The digit for `d`. -/
def digitOf (uppercase : Bool) (d : Nat) : Char := (allDigits uppercase).getD d nul

/-- What a character stands for as a digit in base `base`. -/
def digitValue (base : Nat) (c : Char) : Option Nat :=
  let d :=
    if '0' ≤ c ∧ c ≤ '9' then c.toNat - 48
    else if 'a' ≤ c ∧ c ≤ 'z' then c.toNat - 97 + 10
    else if 'A' ≤ c ∧ c ≤ 'Z' then c.toNat - 65 + 10
    else base
  if d < base then some d else none

/-- The text of `x` in base `base`. -/
def textOf (base : Nat) (uppercase : Bool) (x : Nat) : List Char :=
  numeral base (digitOf uppercase) x

theorem digitValue_digitOf {base : Nat} (hbase : base ≤ 36) (uppercase : Bool) {d : Nat}
    (hd : d < base) : digitValue base (digitOf uppercase d) = some d := by
  have hall : ∀ u : Bool, ∀ d < 36,
      (if '0' ≤ digitOf u d ∧ digitOf u d ≤ '9' then (digitOf u d).toNat - 48
        else if 'a' ≤ digitOf u d ∧ digitOf u d ≤ 'z' then (digitOf u d).toNat - 97 + 10
        else if 'A' ≤ digitOf u d ∧ digitOf u d ≤ 'Z' then (digitOf u d).toNat - 65 + 10
        else 36) = d := by decide
  have hval := hall uppercase d (by omega)
  rw [digitValue]
  split at hval
  · rename_i h
    rw [if_pos h, hval, if_pos hd]
  · rename_i h
    rw [if_neg h]
    split at hval
    · rename_i h
      rw [if_pos h, hval, if_pos hd]
    · rename_i h
      rw [if_neg h]
      split at hval
      · rename_i h
        rw [if_pos h, hval, if_pos hd]
      · omega

theorem digitOf_ne_zero (uppercase : Bool) {d : Nat} (hd : d < 36) (hne : d ≠ 0) :
    digitOf uppercase d ≠ digitOf uppercase 0 := by
  intro heq
  have hval := digitValue_digitOf (Nat.le_refl 36) uppercase hd
  rw [heq, digitValue_digitOf (Nat.le_refl 36) uppercase (by decide)] at hval
  exact hne (Option.some.inj hval).symm

theorem decimalDigits_getD : ∀ u : Bool, ∀ d < 10, decimalDigits.getD d nul = digitOf u d := by
  decide

theorem hexDigits_getD : ∀ u : Bool, ∀ d < 16, (hexDigits u).getD d nul = digitOf u d := by decide

/-! ## The loop -/

theorem storeChar_append {front : List Char} {i : Nat} (hi : front.length = i)
    (rest : List Char) (c d : Char) :
    storeChar (front ++ c :: rest) i d = some (front ++ d :: rest) := by
  rw [storeChar, if_pos (by rw [List.length_append, List.length_cons]; omega),
    List.set_append_right _ _ (by omega), hi, Nat.sub_self]
  rfl

theorem length_take_of_le {s : List Char} {i : Nat} (hi : i ≤ s.length) :
    (s.take i).length = i := by
  rw [List.length_take]
  omega

theorem storeChar_take {s : List Char} {i : Nat} (hi : i < s.length) (rest : List Char)
    (c : Char) :
    storeChar (s.take (i + 1) ++ rest) i c = some (s.take i ++ c :: rest) := by
  have htake : s.take (i + 1) = s.take i ++ [s[i]] := (List.take_append_getElem hi).symm
  rw [htake, List.append_assoc]
  exact storeChar_append (length_take_of_le hi.le) rest s[i] c

/-- The loop writes the digits in front of what the buffer holds from index `i` on. -/
theorem digitLoop_spec {b : Nat} {dg : Nat → Char} {digit : Nat → Char} {rest : Nat → Nat}
    (hb : 1 < b) (hdigit : ∀ x, digit x = dg (x % b)) (hrest : ∀ x, rest x = x / b)
    {s : List Char} : ∀ {i x : Nat} {behind : List Char}, i ≤ s.length →
    (numeral b dg x).length ≤ i →
    digitLoop digit rest i x (s.take i ++ behind) =
      some (s.take (i - (numeral b dg x).length) ++ (numeral b dg x ++ behind),
        i - (numeral b dg x).length) := by
  intro i
  induction i with
  | zero =>
      intro x behind _ hlen
      have := length_numeral_pos b dg x
      omega
  | succ i ih =>
      intro x behind hi hlen
      rw [digitLoop, storeChar_take (by omega), Option.bind_some, hrest, hdigit]
      dsimp only
      by_cases hx : x < b
      · rw [Nat.div_eq_of_lt hx, if_neg (Nat.lt_irrefl 0), numeral_of_lt hx, Nat.mod_eq_of_lt hx]
        rfl
      · have hnum := numeral_of_le dg hb (Nat.le_of_not_lt hx)
        have hpos : x / b > 0 := Nat.div_pos (by omega) (by omega)
        rw [hnum, List.length_append, List.length_singleton] at hlen
        rw [if_pos hpos, ih (by omega) (by omega), hnum, List.length_append, List.length_singleton,
          Nat.add_sub_add_right, List.append_assoc]
        rfl

/-! ## The texts -/

/-- The buffer `s` has become `s'`, in which the text `cs` with its NUL ends at the last index
of `u2s`. -/
structure Written (s s' : List Char) (i slen : Nat) (cs : List Char) : Prop where
  sum : i + slen = u2sBufsize - 1
  length : cs.length = slen
  buffer : s' = s.take i ++ (cs ++ nul :: s.drop u2sBufsize)

theorem length_textOf_le {base x : Nat} (hbase : 2 ≤ base) (hx : x < 2 ^ 64) (uppercase : Bool) :
    (textOf base uppercase x).length ≤ 64 := by
  refine length_numeral_le hbase (by decide) (Nat.lt_of_lt_of_le hx ?_)
  exact Nat.pow_le_pow_left hbase 64

theorem u2s_spec {s : List Char} (hs : u2sBufsize ≤ s.length) {x base : Nat} (hx : x < 2 ^ 64)
    (hbase : 2 ≤ base) (hbase' : base ≤ 36) (uppercase : Bool) :
    ∃ s' i slen, u2s x base uppercase s = some (s', i, slen) ∧
      Written s s' i slen (textOf base uppercase x) := by
  have hsize : u2sBufsize - 1 = 64 := rfl
  have hstart : storeChar s (u2sBufsize - 1) nul =
      some (s.take (u2sBufsize - 1) ++ nul :: s.drop u2sBufsize) := by
    have hall := storeChar_take (show u2sBufsize - 1 < s.length by rw [u2sBufsize] at *; omega)
      (s.drop u2sBufsize) nul
    rw [show u2sBufsize - 1 + 1 = u2sBufsize from rfl, List.take_append_drop] at hall
    exact hall
  have hlen := length_textOf_le hbase hx uppercase
  have hpos := length_numeral_pos base (digitOf uppercase) x
  -- the three loops write the same digits
  have hloop : ∀ (digit : Nat → Char) (rest : Nat → Nat),
      (∀ x, digit x = digitOf uppercase (x % base)) → (∀ x, rest x = x / base) →
      digitLoop digit rest (u2sBufsize - 1) x
          (s.take (u2sBufsize - 1) ++ nul :: s.drop u2sBufsize) =
        some (s.take (64 - (textOf base uppercase x).length) ++
          (textOf base uppercase x ++ nul :: s.drop u2sBufsize),
          64 - (textOf base uppercase x).length) := fun digit rest hdigit hrest =>
    digitLoop_spec hbase hdigit hrest (by omega) hlen
  refine ⟨_, 64 - (textOf base uppercase x).length,
    64 - (64 - (textOf base uppercase x).length), ?_, ⟨by omega, ?_, rfl⟩⟩
  · rw [u2s, hstart, Option.bind_some]
    by_cases h10 : base = 10
    · subst h10
      rw [if_pos rfl, hloop _ _ (fun x => decimalDigits_getD uppercase _ (Nat.mod_lt _ (by decide)))
        fun x => rfl]
      rfl
    · rw [if_neg h10]
      by_cases h16 : base = 16
      · subst h16
        have hand : ∀ x : Nat, x &&& 0xf = x % 16 := fun x => Nat.and_two_pow_sub_one_eq_mod x 4
        rw [if_pos rfl, hloop _ _
          (fun x => by rw [hand, hexDigits_getD uppercase _ (Nat.mod_lt _ (by decide))])
          fun x => Nat.shiftRight_eq_div_pow x 4]
        rfl
      · have hall := hloop (fun x => (allDigits uppercase).getD (x % base) nul) (fun x => x / base)
          (fun x => rfl) fun x => rfl
        rw [if_neg h16, if_pos ⟨hbase, hbase'⟩, hall]
        rfl
  · show (textOf base uppercase x).length = _
    omega

theorem Written.prepend {s s' : List Char} {i slen : Nat} {cs : List Char}
    (h : Written s s' i slen cs) (hs : u2sBufsize ≤ s.length) (hi : 0 < i) (c : Char) :
    ∃ s'' j, Libc.prepend (s', i, slen) c = some (s'', j, slen + 1) ∧
      Written s s'' j (slen + 1) (c :: cs) := by
  obtain ⟨hsum, hlen, rfl⟩ := h
  have hsize : u2sBufsize = 65 := rfl
  obtain ⟨j, rfl⟩ : ∃ j, i = j + 1 := ⟨i - 1, by omega⟩
  refine ⟨_, j, ?_, by omega, by rw [List.length_cons, hlen], rfl⟩
  rw [Libc.prepend, storeChar_take (by omega)]
  rfl

/-- The first character of a text. -/
theorem Written.first {s s' : List Char} {i slen : Nat} {cs : List Char}
    (h : Written s s' i slen cs) (hs : u2sBufsize ≤ s.length) (hcs : cs ≠ []) :
    s'[i]? = cs.head? := by
  obtain ⟨hsum, -, rfl⟩ := h
  have hsize : u2sBufsize = 65 := rfl
  have hpre := length_take_of_le (show i ≤ s.length by omega)
  rw [List.getElem?_append_right (by omega), hpre, Nat.sub_self]
  cases cs with
  | nil => exact absurd rfl hcs
  | cons c cs => rfl

/-- The sign that `d2s` puts in front. -/
def signOf (x : Int) (sign : Char) : List Char :=
  if x < 0 then ['-'] else if sign = ' ' ∨ sign = '+' then [sign] else []

theorem toUnsigned_negate {x : Int} (hlo : -2 ^ 63 ≤ x) (hx : x < 0) :
    toUnsigned (negate x) = x.natAbs := by
  have hcast : ((2 ^ 64 : Nat) : Int) = 2 ^ 64 := rfl
  have hmod : -x % 2 ^ 64 = -x := Int.emod_eq_of_lt (by omega) (by omega)
  rw [toUnsigned, negate, ← hcast, Int.bmod_emod, hcast, hmod]
  omega

theorem toUnsigned_nonneg {x : Int} (hhi : x < 2 ^ 63) (hx : 0 ≤ x) :
    toUnsigned x = x.natAbs := by
  rw [toUnsigned, Int.emod_eq_of_lt hx (by omega)]
  omega

theorem length_textOf_small {base : Nat} (hbase : 8 ≤ base) {x : Nat} (hx : x < 2 ^ 64)
    (uppercase : Bool) : (textOf base uppercase x).length ≤ 22 := by
  refine length_numeral_le (by omega) (by decide) (Nat.lt_of_lt_of_le hx ?_)
  calc 2 ^ 64 ≤ 8 ^ 22 := by decide
    _ ≤ base ^ 22 := Nat.pow_le_pow_left hbase 22

theorem d2s_spec {s : List Char} (hs : u2sBufsize ≤ s.length) {x : Int} (hlo : -2 ^ 63 ≤ x)
    (hhi : x < 2 ^ 63) (sign : Char) :
    ∃ s' i slen, d2s x sign s = some (s', i, slen) ∧
      Written s s' i slen (signOf x sign ++ textOf 10 false x.natAbs) := by
  have hx : x.natAbs < 2 ^ 64 := by omega
  obtain ⟨s', i, slen, hu, hw⟩ := u2s_spec hs hx (show 2 ≤ 10 by decide) (by decide) false
  have hshort := length_textOf_small (show 8 ≤ 10 by decide) hx false
  have hi : 0 < i := by
    have h₁ := hw.sum
    have h₂ := hw.length
    rw [show u2sBufsize - 1 = 64 from rfl] at h₁
    omega
  by_cases hneg : x < 0
  · obtain ⟨s'', j, hp, hw'⟩ := hw.prepend hs hi '-'
    refine ⟨s'', j, slen + 1, ?_, ?_⟩
    · simp only [d2s, hneg, decide_true, if_true, toUnsigned_negate hlo hneg]
      rw [hu, Option.bind_some]
      exact hp
    · rw [signOf, if_pos hneg]
      exact hw'
  · have hu' : u2s (toUnsigned x) 10 false s = some (s', i, slen) := by
      rw [toUnsigned_nonneg hhi (by omega), hu]
    simp only [d2s, hneg, decide_false, Bool.false_eq_true, if_false, hu', Option.bind_some,
      Bool.not_false, and_true]
    rw [signOf, if_neg hneg]
    by_cases hminus : sign = '-'
    · subst hminus
      exact ⟨s', i, slen, if_pos rfl, hw⟩
    · rw [if_neg hminus]
      by_cases hsign : sign = ' ' ∨ sign = '+'
      · obtain ⟨s'', j, hp, hw'⟩ := hw.prepend hs hi sign
        rw [if_pos (.inr hsign), if_pos hsign]
        exact ⟨s'', j, slen + 1, hp, hw'⟩
      · rw [if_neg (fun h => hsign (h.resolve_left hminus)), if_neg hsign]
        exact ⟨s', i, slen, rfl, hw⟩

/-- The prefix that `o2s` puts in front. -/
def octalPrefix (x : Nat) (altForm : Bool) : List Char :=
  if altForm ∧ x ≠ 0 then ['0'] else []

theorem head_textOf_zero (base : Nat) (hbase : 2 ≤ base) (uppercase : Bool) :
    (textOf base uppercase 0).head? = some '0' := by
  rw [textOf, numeral_of_lt (by omega), List.head?_cons]
  cases uppercase <;> rfl

theorem head_textOf {base x : Nat} (hbase : 2 ≤ base) (hbase' : base ≤ 36) (uppercase : Bool)
    (hx : x ≠ 0) : (textOf base uppercase x).head? ≠ some '0' := by
  have hzero : digitOf uppercase 0 = '0' := by
    cases uppercase <;> rfl
  have hdigits : ∀ d < base, d ≠ 0 → digitOf uppercase d ≠ digitOf uppercase 0 :=
    fun d hd hne => digitOf_ne_zero uppercase (by omega) hne
  rw [← hzero]
  exact head_numeral hbase hdigits hx

theorem o2s_spec {s : List Char} (hs : u2sBufsize ≤ s.length) {x : Nat} (hx : x < 2 ^ 64)
    (altForm : Bool) :
    ∃ s' i slen, o2s x altForm s = some (s', i, slen) ∧
      Written s s' i slen (octalPrefix x altForm ++ textOf 8 false x) := by
  obtain ⟨s', i, slen, hu, hw⟩ := u2s_spec hs hx (show 2 ≤ 8 by decide) (by decide) false
  have hshort := length_textOf_small (show 8 ≤ 8 by decide) hx false
  have hi : 0 < i := by
    have h₁ := hw.sum
    have h₂ := hw.length
    rw [show u2sBufsize - 1 = 64 from rfl] at h₁
    omega
  have hfirst := hw.first hs (numeral_ne_nil x)
  have hzero : s'[i]? ≠ some '0' ↔ x ≠ 0 := by
    rw [hfirst]
    refine ⟨fun h hx0 => h ?_, head_textOf (by decide) (by decide) false⟩
    rw [hx0]
    exact head_textOf_zero 8 (by decide) false
  have hcond : (altForm = true ∧ s'[i]? ≠ some '0') ↔ (altForm = true ∧ x ≠ 0) :=
    and_congr_right fun _ => hzero
  rw [o2s, hu, Option.bind_some, octalPrefix]
  by_cases halt : altForm = true ∧ x ≠ 0
  · obtain ⟨s'', j, hp, hw'⟩ := hw.prepend hs hi '0'
    rw [if_pos (hcond.mpr halt), if_pos halt]
    exact ⟨s'', j, slen + 1, hp, hw'⟩
  · rw [if_neg (mt hcond.mp halt), if_neg halt]
    exact ⟨s', i, slen, rfl, hw⟩

/-- The prefix that `x2s` puts in front. -/
def hexPrefix (altForm uppercase : Bool) : List Char :=
  if altForm then ['0', if uppercase then 'X' else 'x'] else []

theorem x2s_spec {s : List Char} (hs : u2sBufsize ≤ s.length) {x : Nat} (hx : x < 2 ^ 64)
    (altForm uppercase : Bool) :
    ∃ s' i slen, x2s x altForm uppercase s = some (s', i, slen) ∧
      Written s s' i slen (hexPrefix altForm uppercase ++ textOf 16 uppercase x) := by
  obtain ⟨s', i, slen, hu, hw⟩ := u2s_spec hs hx (show 2 ≤ 16 by decide) (by decide) uppercase
  have hshort := length_textOf_small (show 8 ≤ 16 by decide) hx uppercase
  rw [x2s, hu, Option.bind_some, hexPrefix]
  dsimp only
  cases altForm with
  | false => exact ⟨s', i, slen, rfl, hw⟩
  | true =>
      obtain ⟨hsum, hlen, rfl⟩ := hw
      have hsize : u2sBufsize = 65 := rfl
      obtain ⟨j, rfl⟩ : ∃ j, i = j + 2 := ⟨i - 2, by omega⟩
      have htake : s.take (j + 2) = s.take j ++ [s[j], s[j + 1]] := by
        rw [← List.take_append_getElem (show j + 1 < s.length by omega),
          ← List.take_append_getElem (show j < s.length by omega), List.append_assoc]
        rfl
      have hpre := length_take_of_le (show j ≤ s.length by omega)
      generalize hrest : textOf 16 uppercase x ++ nul :: s.drop u2sBufsize = rest
      have hfirst : storeChar (s.take (j + 2) ++ rest) j '0' =
          some ((s.take j ++ ['0']) ++ s[j + 1] :: rest) := by
        rw [htake, List.append_assoc, List.append_assoc]
        exact storeChar_append hpre _ s[j] '0'
      have hsecond := storeChar_append
        (show (s.take j ++ ['0']).length = j + 1 by rw [List.length_append, hpre]; rfl)
        rest s[j + 1]
      refine ⟨(s.take j ++ ['0']) ++ (if uppercase then 'X' else 'x') :: rest, j, slen + 2, ?_,
        by omega, by simp [hlen], ?_⟩
      · rw [if_pos rfl, if_neg (by omega), Nat.add_sub_cancel, hfirst, Option.bind_some,
          show j + 2 - 1 = j + 1 by omega, hsecond]
        rfl
      · rw [← hrest]
        simp

/-- The text that a call returns. -/
def textAt (r : Result) : List Char := (r.1.drop r.2.1).take r.2.2

theorem Written.textAt {s s' : List Char} {i slen : Nat} {cs : List Char}
    (h : Written s s' i slen cs) (hs : u2sBufsize ≤ s.length) :
    Libc.textAt (s', i, slen) = cs := by
  obtain ⟨hsum, rfl, rfl⟩ := h
  have hsize : u2sBufsize = 65 := rfl
  have hpre := length_take_of_le (show i ≤ s.length by omega)
  show ((s.take i ++ (cs ++ nul :: s.drop u2sBufsize)).drop i).take cs.length = cs
  rw [List.drop_append_of_le_length (by omega), List.drop_of_length_le (by omega),
    List.nil_append, List.take_append_of_le_length (Nat.le_refl _), List.take_length]

/-- Every call stays in the buffer. The text of a number decodes to it, is without leading
zeros and has up to 64 digits; the other calls return a sign or prefix and then such a text. -/
theorem number_texts {s : List Char} (hs : u2sBufsize ≤ s.length) :
    (∀ x < 2 ^ 64, ∀ base, 2 ≤ base → base ≤ 36 → ∀ uppercase, ∃ s' i slen,
      u2s x base uppercase s = some (s', i, slen) ∧
      Written s s' i slen (textOf base uppercase x) ∧
      textAt (s', i, slen) = textOf base uppercase x ∧
      decode base (digitValue base) (textAt (s', i, slen)) = some x ∧
      (x ≠ 0 → (textAt (s', i, slen)).head? ≠ some '0') ∧ 1 ≤ slen ∧ slen ≤ 64) ∧
    (∀ x : Int, -2 ^ 63 ≤ x → x < 2 ^ 63 → ∀ sign, ∃ s' i slen,
      d2s x sign s = some (s', i, slen) ∧
      Written s s' i slen (signOf x sign ++ textOf 10 false x.natAbs)) ∧
    (∀ x < 2 ^ 64, ∀ altForm, ∃ s' i slen, o2s x altForm s = some (s', i, slen) ∧
      Written s s' i slen (octalPrefix x altForm ++ textOf 8 false x)) ∧
    ∀ x < 2 ^ 64, ∀ altForm uppercase, ∃ s' i slen,
      x2s x altForm uppercase s = some (s', i, slen) ∧
      Written s s' i slen (hexPrefix altForm uppercase ++ textOf 16 uppercase x) := by
  refine ⟨fun x hx base hbase hbase' uppercase => ?_,
    fun x hlo hhi sign => d2s_spec hs hlo hhi sign,
    fun x hx altForm => o2s_spec hs hx altForm,
    fun x hx altForm uppercase => x2s_spec hs hx altForm uppercase⟩
  obtain ⟨s', i, slen, hu, hw⟩ := u2s_spec hs hx hbase hbase' uppercase
  have htext := hw.textAt hs
  have hlen := hw.length
  refine ⟨s', i, slen, hu, hw, htext, ?_, ?_, ?_, ?_⟩
  · rw [htext]
    exact decode_numeral hbase (fun d hd => digitValue_digitOf hbase' uppercase hd) x
  · rw [htext]
    exact head_textOf hbase hbase' uppercase
  · rw [← hlen]
    exact length_numeral_pos base _ x
  · rw [← hlen]
    exact length_textOf_le hbase hx uppercase

theorem number_texts_min : ∃ s' i slen,
    d2s (-2 ^ 63) '-' (List.replicate 66 nul) = some (s', i, slen) ∧
      Written (List.replicate 66 nul) s' i slen
        (signOf (-2 ^ 63) '-' ++ textOf 10 false (-2 ^ 63 : Int).natAbs) :=
  (number_texts (by decide)).2.1 (-2 ^ 63) (by decide) (by decide) '-'

end Ccbase.Libc
