import Ccbase.Lib.Run
import Ccbase.Libc.NumberText

/-!
# `malloc_vsnprintf` of `ms_print.cc`

A round of the outer loop reads a character or a directive of the format, and with it
the arguments that the directive takes, and appends an item to the output. The cursor
`f` is what is left of the format, up to its NUL; the output is the buffer `str` and
the number `i` of characters so far, of which there are less than `2 ^ 64`.

No result stands for a failed assertion, for an argument that is missing or of another
kind than the one read, for `-width` of the least `int` and for an access outside of
`str` or of a string that is passed.
-/

namespace Ccbase.Libc

open Ccbase.Lib

/-! ## Arguments -/

/-- An argument of 32 bits, one of 64 bits, or a `char *` as the characters that can be
read behind it. -/
inductive Arg where
  | int (v : BitVec 32)
  | long (v : BitVec 64)
  | string (s : List Char)
  deriving DecidableEq

def vaInt : List Arg → Option (BitVec 32 × List Arg)
  | .int v :: ap => some (v, ap)
  | _ => none

def vaLong : List Arg → Option (BitVec 64 × List Arg)
  | .long v :: ap => some (v, ap)
  | _ => none

def vaString : List Arg → Option (List Char × List Arg)
  | .string s :: ap => some (s, ap)
  | _ => none

/-- `GET_ARG_NUMERIC`; `high` is the bit `0x80` of `len`. -/
def getArgNumeric (len : Char) (high : Bool) (ap : List Arg) : Option (Int × List Arg) :=
  let int := (vaInt ap).map fun (v, ap) => (v.toInt, ap)
  let unsignedInt := (vaInt ap).map fun (v, ap) => ((v.toNat : Int), ap)
  let long := (vaLong ap).map fun (v, ap) => (v.toInt, ap)
  let unsignedLong := (vaLong ap).map fun (v, ap) => ((v.toNat : Int), ap)
  match len, high with
  | '?', false => int
  | '?', true => unsignedInt
  | 'l', false => long
  | 'l', true => unsignedLong
  | 'q', false => long
  | 'q', true => unsignedLong
  | 'j', false => long
  | 'j', true => unsignedLong
  | 't', false => long
  | 'z', false => long
  | 'z', true => unsignedLong
  | 'p', false => unsignedLong
  | _, _ => some (0, ap)

/-- A number as an `intmax_t`. -/
def toSigned (x : Int) : Int := x.bmod (2 ^ 64)

/-! ## A round -/

/-- What a directive has set so far. -/
structure Directive where
  altForm : Bool := false
  leftJustify : Bool := false
  plusSpace : Bool := false
  plusPlus : Bool := false
  prec : Int := -1
  width : Int := -1
  len : Char := '?'
  padZero : Bool := false
  deriving DecidableEq

/-- What a round appends. -/
inductive Item where
  | nothing
  | char (c : Char)
  | number (s : Result) (d : Directive)
  | string (s : List Char) (slen : Nat) (d : Directive)
  deriving DecidableEq

def flags : List Char → Directive → Option (List Char × Directive)
  | [], d => some ([], d)
  | c :: f, d =>
      if c = '#' then flags f { d with altForm := true }
      else if c = '-' then if d.leftJustify then none else flags f { d with leftJustify := true }
      else if c = ' ' then if d.plusSpace then none else flags f { d with plusSpace := true }
      else if c = '+' then if d.plusPlus then none else flags f { d with plusPlus := true }
      else some (c :: f, d)

/-- The digits of a width or a precision are not read: the variable that is to hold their
value has the one `uninit` that it happens to have there, and the cursor stays. -/
def labelWidth (uninit : List Char → Int) (f : List Char) (ap : List Arg) (d : Directive) :
    Option (List Char × List Arg × Directive) :=
  match f with
  | [] => some (f, ap, d)
  | c :: f' =>
      if c = '*' then
        (vaInt ap).bind fun (v, ap) =>
          if v.toInt < 0 then
            if v.toInt = -2 ^ 31 then none
            else some (f', ap, { d with leftJustify := true, width := -v.toInt })
          else some (f', ap, { d with width := v.toInt })
      else if c = '0' then some (f, ap, { d with padZero := true, width := uninit f })
      else if c ∈ decimalDigits then some (f, ap, { d with width := uninit f })
      else some (f, ap, d)

def precision (uninit : List Char → Int) (f : List Char) (ap : List Arg) (d : Directive) :
    Option (List Char × List Arg × Directive) :=
  match f with
  | [] => some (f, ap, d)
  | c :: f' =>
      if c = '.' then
        match f' with
        | [] => some (f', ap, d)
        | c :: f'' =>
            if c = '*' then (vaInt ap).map fun (v, ap) => (f'', ap, { d with prec := v.toInt })
            else if c ∈ decimalDigits then some (f', ap, { d with prec := uninit f' })
            else some (f', ap, d)
      else some (f, ap, d)

def labelLength (f : List Char) (d : Directive) : List Char × Directive :=
  match f with
  | [] => (f, d)
  | c :: f' =>
      if c = 'l' then
        if f'.head? = some 'l' then (f'.tail, { d with len := 'q' })
        else (f', { d with len := 'l' })
      else if c = 'q' ∨ c = 'j' ∨ c = 't' ∨ c = 'z' then (f', { d with len := c })
      else (f, d)

def d2sBufsize : Nat := 1 + u2sBufsize

def o2sBufsize : Nat := 1 + u2sBufsize

def x2sBufsize : Nat := 2 + u2sBufsize

/-- `char buf[n]`. -/
def newBuf (n : Nat) : List Char := List.replicate n nul

/-- `strlen`, if there is a NUL among the characters. -/
def strlen (s : List Char) : Option Nat := s.idxOf? nul

/-- A number is taken from the arguments and written into a buffer of its own. -/
def number (val : Option (Int × List Arg)) (text : Int → Option Result) (f : List Char)
    (d : Directive) : Option (Item × List Char × List Arg) :=
  val.bind fun (val, ap) => (text val).map fun s => (.number s d, f, ap)

def conversion (f : List Char) (ap : List Arg) (d : Directive) :
    Option (Item × List Char × List Arg) :=
  match f with
  | [] => some (.nothing, f, ap)
  | c :: f' =>
      if c = '%' then some (.char c, f', ap)
      else if c = 'd' ∨ c = 'i' then
        if d.padZero then none
        else
          let sign := if d.plusPlus then '+' else if d.plusSpace then ' ' else '-'
          number (getArgNumeric d.len false ap)
            (fun val => d2s (toSigned val) sign (newBuf d2sBufsize)) f' d
      else if c = 'o' then
        number (getArgNumeric d.len true ap)
          (fun val => o2s (toUnsigned val) d.altForm (newBuf o2sBufsize)) f' d
      else if c = 'u' then
        number (getArgNumeric d.len true ap)
          (fun val => u2s (toUnsigned val) 10 false (newBuf u2sBufsize)) f' d
      else if c = 'x' ∨ c = 'X' then
        number (getArgNumeric d.len true ap)
          (fun val => x2s (toUnsigned val) d.altForm (c = 'X') (newBuf x2sBufsize)) f' d
      else if c = 'c' then
        if d.len = '?' ∨ d.len = 'l' then
          (vaInt ap).map fun (v, ap) =>
            (.string [Char.ofNat (v.toNat % 256), nul] 1 d, f', ap)
        else none
      else if c = 's' then
        if d.len = '?' ∨ d.len = 'l' then
          (vaString ap).bind fun (s, ap) =>
            (if d.prec < 0 then strlen s else some d.prec.toNat).map fun slen =>
              (.string s slen d, f', ap)
        else none
      else if c = 'p' then
        number (getArgNumeric 'p' false ap)
          (fun val => x2s (toUnsigned val) true false (newBuf x2sBufsize)) f' d
      else some (.nothing, f, ap)

/-- A round of the outer loop. -/
def next (uninit : List Char → Int) (f : List Char) (ap : List Arg) :
    Option (Item × List Char × List Arg) :=
  match f with
  | [] => none
  | c :: f =>
      if c = '%' then
        (flags f {}).bind fun (f, d) =>
          (labelWidth uninit f ap d).bind fun (f, ap, d) =>
            (precision uninit f ap d).bind fun (f, ap, d) =>
              let (f, d) := labelLength f d
              conversion f ap d
      else some (.char c, f, ap)

/-! ## The output -/

structure Out where
  str : List Char
  i : Nat
  deriving DecidableEq

/-- `APPEND_C`. -/
def appendC (size : Nat) (c : Char) (o : Out) : Option Out :=
  if o.i < size then (storeChar o.str o.i c).map fun str => ⟨str, o.i + 1⟩
  else some { o with i := o.i + 1 }

/-- `memcpy(&str[i], s, n)`. -/
def memcpy (str : List Char) (i : Nat) (s : List Char) (n : Nat) : Option (List Char) :=
  if n ≤ s.length ∧ i + n ≤ str.length then some (str.take i ++ s.take n ++ str.drop (i + n))
  else none

/-- `APPEND_S`. -/
def appendS (size : Nat) (s : List Char) (slen : Nat) (o : Out) : Option Out :=
  if o.i < size then
    let cpylen := if slen ≤ size - o.i then slen else size - o.i
    (memcpy o.str o.i s cpylen).map fun str => ⟨str, o.i + slen⟩
  else some { o with i := o.i + slen }

/-- `pad_len`. -/
def padLen (slen : Nat) (width : Int) : Nat :=
  if width = -1 then 0
  else if slen < toUnsigned width then toUnsigned width - slen else 0

/-- A loop of `APPEND_C`. -/
def appendPadding (size : Nat) (c : Char) : Nat → Out → Option Out
  | 0, o => some o
  | n + 1, o => (appendC size c o).bind (appendPadding size c n)

/-- `APPEND_PADDED_S`. -/
def appendPaddedS (size : Nat) (s : List Char) (slen : Nat) (d : Directive) (o : Out) :
    Option Out :=
  let left :=
    if ¬ d.leftJustify ∧ padLen slen d.width ≠ 0 then
      appendPadding size (if d.padZero then '0' else ' ') (padLen slen d.width) o
    else some o
  left.bind fun o =>
    (appendS size s slen o).bind fun o =>
      if d.leftJustify ∧ padLen slen d.width ≠ 0 then
        appendPadding size ' ' (padLen slen d.width) o
      else some o

def append (size : Nat) (o : Out) : Item → Option Out
  | .nothing => some o
  | .char c => appendC size c o
  | .number s d => appendPaddedS size (s.1.drop s.2.1) s.2.2 d o
  | .string s slen d => appendPaddedS size s slen d o

/-- The outer loop, in at most that many rounds. -/
def outerLoop (uninit : List Char → Int) (size : Nat) :
    Nat → List Char → List Arg → Out → Option Out
  | 0, _, _, _ => none
  | rounds + 1, f, ap, o =>
      if f = [] then some o
      else
        (next uninit f ap).bind fun (item, f, ap) =>
          (append size o item).bind fun o => outerLoop uninit size rounds f ap o

/-- `label_out`. -/
def labelOut (size : Nat) (o : Out) : Option (List Char) :=
  if o.i < size then storeChar o.str o.i nul
  else if size = 0 then none
  else storeChar o.str (size - 1) nul

/-- The buffer afterwards and what is returned. -/
def mallocVsnprintf (uninit : List Char → Int) (str : List Char) (size : Nat)
    (format : List Char) (ap : List Arg) : Option (List Char × Nat) :=
  (outerLoop uninit size (format.length + 1) format ap ⟨str, 0⟩).bind fun o =>
    (labelOut size o).map fun str => (str, o.i)

end Ccbase.Libc
