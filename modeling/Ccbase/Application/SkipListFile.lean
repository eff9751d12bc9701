import Ccbase.Application.SkipListFault
import Ccbase.Lib.Numeral
import Mathlib.Algebra.Order.Group.Int
import Mathlib.Data.List.TakeWhile

/-!
# `dump_file` and `load_file`

A `SkipList` with keys of type `int` and strings as values is written to a file, one
element a line, and read back line by line. A line ends a key at its first `:`; the
variables for key and value keep what they had where a line has no `:`, and a line
whose key or value is empty is left out.

Strings and files are lists of characters, which are bytes.
-/

namespace Ccbase.Application

open Ccbase.Lib

/-- `int`. -/
abbrev IntKey := {k : Int // -2 ^ 31 ≤ k ∧ k < 2 ^ 31}

abbrev Text := List Char

/-! ## Numbers as text -/

def decimalDigit (d : Nat) : Char := Char.ofNat (48 + d)

def decimalValue (c : Char) : Option Nat := if c.isDigit then some (c.toNat - 48) else none

/-- `operator<<` of an `int`. -/
def showInt (k : Int) : Text :=
  if k < 0 then '-' :: numeral 10 decimalDigit k.natAbs else numeral 10 decimalDigit k.natAbs

def isSpace (c : Char) : Bool := c = ' ' ∨ c = '\t' ∨ c = '\n' ∨ c = '\x0b' ∨ c = '\x0c' ∨ c = '\r'

/-- The digits that `stoi` reads, with the sign in front of them. -/
def signedDigits (cs : Text) : Bool × Text :=
  match cs with
  | '-' :: cs => (true, cs.takeWhile Char.isDigit)
  | '+' :: cs => (false, cs.takeWhile Char.isDigit)
  | cs => (false, cs.takeWhile Char.isDigit)

/-- `stoi`; `none` if it throws, without a digit or out of range. -/
def stoi (cs : Text) : Option IntKey :=
  let (neg, digits) := signedDigits (cs.dropWhile isSpace)
  if digits = [] then none
  else
    (decode 10 decimalValue digits).bind fun n =>
      let k : Int := if neg then -n else n
      if h : -2 ^ 31 ≤ k ∧ k < 2 ^ 31 then some ⟨k, h⟩ else none

/-! ## Lines -/

/-- `is_valid_string`. -/
def isValidString (str : Text) : Bool := !str.isEmpty && str.contains ':'

/-- `get_key_value_from_string`: what `key` and `value` are afterwards. -/
def getKeyValueFromString (str : Text) (kv : Text × Text) : Text × Text :=
  if isValidString str then
    (str.takeWhile fun c => c ≠ ':', (str.dropWhile fun c => c ≠ ':').tail)
  else kv

/-- What `getline` gives one after the other, with the beginning `line` of the first. -/
def linesFrom (line : Text) : Text → List Text
  | [] => if line = [] then [] else [line]
  | c :: cs => if c = '\n' then line :: linesFrom [] cs else linesFrom (line ++ [c]) cs

namespace SkipList

/-- The loop of `dump_file`. -/
def dumpFrom (h : Heap (Node IntKey Text)) : Nat → Option Nat → Option Text
  | _, none => some []
  | 0, some _ => none
  | rounds + 1, some p =>
      (h.get p).bind fun x =>
        (readForward h p 0).bind fun next =>
          (dumpFrom h rounds next).map fun file =>
            showInt x.key ++ ':' :: (x.value ++ '\n' :: file)

/-- `dump_file`: what the file holds. -/
def dumpFile (s : SkipList IntKey Text) : Option Text :=
  (readForward s.heap s.header 0).bind fun node => dumpFrom s.heap s.elementCount node

/-- The loop of `load_file`, with the random level of each insertion. -/
def loadLines (levels : Nat → Nat) :
    List Text → Text × Text → Nat → SkipList IntKey Text → Option (SkipList IntKey Text)
  | [], _, _, s => some s
  | line :: rest, kv, n, s =>
      let kv := getKeyValueFromString line kv
      if kv.1 = [] ∨ kv.2 = [] then loadLines levels rest kv n s
      else
        (stoi kv.1).bind fun key =>
          (s.insertElement key kv.2 (levels n)).bind fun r =>
            loadLines levels rest kv (n + 1) r.2

/-- `load_file`. -/
def loadFile (levels : Nat → Nat) (file : Text) (s : SkipList IntKey Text) :
    Option (SkipList IntKey Text) :=
  loadLines levels (linesFrom [] file) ([], []) 0 s

end SkipList

/-! ## Numbers -/

theorem decimalValue_digit : ∀ d < 10, decimalValue (decimalDigit d) = some d := by decide

theorem isDigit_digit : ∀ d < 10, (decimalDigit d).isDigit = true := by decide

theorem isDigit_of_mem_numeral {n : Nat} : ∀ c ∈ numeral 10 decimalDigit n, c.isDigit = true :=
  forall_mem_numeral (by decide) isDigit_digit

/-- A key has no separator in it. -/
theorem not_mem_showInt {k : Int} {c : Char} (hc : c.isDigit = false) (hminus : c ≠ '-') :
    c ∉ showInt k := by
  have hnum : c ∉ numeral 10 decimalDigit k.natAbs := by
    intro hmem
    rw [isDigit_of_mem_numeral c hmem] at hc
    cases hc
  rw [showInt]
  split
  · rw [List.mem_cons, not_or]
    exact ⟨hminus, hnum⟩
  · exact hnum

theorem showInt_ne_nil (k : Int) : showInt k ≠ [] := by
  rw [showInt]
  split
  · exact List.cons_ne_nil _ _
  · exact numeral_ne_nil _

theorem takeWhile_numeral (n : Nat) :
    (numeral 10 decimalDigit n).takeWhile Char.isDigit = numeral 10 decimalDigit n :=
  List.takeWhile_eq_self_iff.mpr isDigit_of_mem_numeral

theorem signedDigits_showInt (k : Int) :
    signedDigits (showInt k) = (decide (k < 0), numeral 10 decimalDigit k.natAbs) := by
  rw [showInt]
  by_cases hneg : k < 0
  · rw [if_pos hneg, decide_eq_true hneg, signedDigits, takeWhile_numeral]
  · rw [if_neg hneg, decide_eq_false hneg]
    have hdigit : ∀ {c : Char} {cs : Text}, numeral 10 decimalDigit k.natAbs = c :: cs →
        c.isDigit = true := fun h =>
      isDigit_of_mem_numeral (n := k.natAbs) _ (by rw [h]; exact List.mem_cons_self)
    unfold signedDigits
    split
    · rename_i h
      cases hdigit h
    · rename_i h
      cases hdigit h
    · rw [takeWhile_numeral]

theorem isSpace_of_isDigit {c : Char} (hc : c.isDigit = true) : isSpace c = false := by
  rw [isSpace, decide_eq_false_iff_not]
  rintro (rfl | rfl | rfl | rfl | rfl | rfl) <;> cases hc

theorem dropWhile_showInt (k : Int) : (showInt k).dropWhile isSpace = showInt k := by
  obtain ⟨c, cs, hcs⟩ := List.exists_cons_of_ne_nil (showInt_ne_nil k)
  have hc : isSpace c = false := by
    have hmem : c ∈ showInt k := by
      rw [hcs]
      exact List.mem_cons_self
    rw [showInt] at hmem
    split at hmem
    · rcases List.mem_cons.mp hmem with rfl | hmem
      · rfl
      · exact isSpace_of_isDigit (isDigit_of_mem_numeral c hmem)
    · exact isSpace_of_isDigit (isDigit_of_mem_numeral c hmem)
  rw [hcs, List.dropWhile_cons, hc]
  rfl

/-- Every key is read as it was written. -/
theorem stoi_showInt (k : IntKey) : stoi (showInt k) = some k := by
  obtain ⟨k, hlo, hhi⟩ := k
  have hvalue : (if decide (k < 0) = true then -(k.natAbs : Int) else (k.natAbs : Int)) = k := by
    by_cases hneg : k < 0
    · rw [if_pos (decide_eq_true hneg)]
      omega
    · rw [if_neg (by simpa using hneg)]
      omega
  rw [stoi, dropWhile_showInt, signedDigits_showInt]
  dsimp only
  rw [if_neg (numeral_ne_nil _), decode_numeral (by decide) decimalValue_digit, Option.bind_some]
  simp only [hvalue]
  rw [dif_pos ⟨hlo, hhi⟩]

/-! ## Lines -/

theorem linesFrom_append {text : Text} (htext : '\n' ∉ text) : ∀ (line file : Text),
    linesFrom line (text ++ '\n' :: file) = (line ++ text) :: linesFrom [] file := by
  induction text with
  | nil =>
      intro line file
      rw [List.append_nil]
      rfl
  | cons c text ih =>
      intro line file
      rw [List.mem_cons, not_or] at htext
      rw [List.cons_append, linesFrom, if_neg (Ne.symm htext.1), ih htext.2, List.append_assoc]
      rfl

/-- The line of an element. -/
def lineOf (e : Item IntKey Text) : Text := showInt e.key ++ ':' :: e.value

theorem linesFrom_flatMap {c : List (Item IntKey Text)} (hc : ∀ e ∈ c, '\n' ∉ e.value) :
    linesFrom [] (c.flatMap fun e => lineOf e ++ ['\n']) = c.map lineOf := by
  induction c with
  | nil => rfl
  | cons e c ih =>
      have hline : '\n' ∉ lineOf e := by
        rw [lineOf, List.mem_append, List.mem_cons, not_or, not_or]
        exact ⟨not_mem_showInt rfl (by decide), by decide, hc e List.mem_cons_self⟩
      have hrest := ih fun a ha => hc a (List.mem_cons_of_mem e ha)
      rw [List.flatMap_cons, List.append_assoc, List.map_cons, ← hrest]
      exact linesFrom_append hline [] _

/-- A line is split at the end of its key. -/
theorem getKeyValueFromString_lineOf (e : Item IntKey Text) (kv : Text × Text) :
    getKeyValueFromString (lineOf e) kv = (showInt e.key, e.value) := by
  have hne : ∀ c ∈ showInt e.key, decide (c ≠ ':') = true := by
    intro c hc
    rw [decide_eq_true_eq]
    rintro rfl
    exact not_mem_showInt rfl (by decide) hc
  have hvalid : isValidString (lineOf e) = true := by
    simp [isValidString, lineOf]
  rw [getKeyValueFromString, if_pos hvalid, lineOf, List.takeWhile_append_of_pos hne,
    List.dropWhile_append_of_pos hne]
  simp

namespace SkipList

variable {s t : SkipList IntKey Text} {c : List (Item IntKey Text)}

theorem dumpFrom_eq {h : Heap (Node IntKey Text)} : ∀ {c : List (Item IntKey Text)}
    {rounds a : Nat}, (∀ e ∈ c, info h e.ptr = some (e.key, e.value, e.level)) →
    Links (fwd h 0) a (c.map Item.ptr) none → c.length ≤ rounds →
    dumpFrom h rounds (fwd h 0 a) = some (c.flatMap fun e => lineOf e ++ ['\n']) := by
  intro c
  induction c with
  | nil =>
      intro rounds a _ hlinks _
      have hnone : fwd h 0 a = none := hlinks
      rw [hnone]
      cases rounds <;> rfl
  | cons e c ih =>
      intro rounds a hitems hlinks hrounds
      obtain ⟨rounds, rfl⟩ : ∃ r, rounds = r + 1 := ⟨rounds - 1, by simp at hrounds; omega⟩
      obtain ⟨hnext, hrest⟩ := hlinks
      have hinfo := hitems e List.mem_cons_self
      obtain ⟨x, hx, hxk, hxv, -⟩ := get_of_info hinfo
      have hfile := ih (fun b hb => hitems b (List.mem_cons_of_mem e hb)) hrest
        (show c.length ≤ rounds by simpa using hrounds)
      rw [hnext, dumpFrom, hx, Option.bind_some, readForward_of_info hinfo (Nat.zero_le _),
        Option.bind_some, hfile, Option.map_some, hxk, hxv, List.flatMap_cons, lineOf]
      simp

theorem Repr.dumpFile (hr : Repr s c) :
    s.dumpFile = some (c.flatMap fun e => lineOf e ++ ['\n']) := by
  obtain ⟨k, v, hheader⟩ := hr.header
  have hlinks := hr.links 0 (Nat.zero_le _)
  rw [tower_zero] at hlinks
  rw [SkipList.dumpFile, readForward_of_info hheader (Nat.zero_le _), Option.bind_some]
  exact dumpFrom_eq hr.items hlinks hr.count.ge

/-- Lines of items with keys in ascending order, above those that are there, add the items
with a value. -/
theorem loadLines_eq {levels : Nat → Nat} : ∀ {c c₀ : List (Item IntKey Text)}
    {t : SkipList IntKey Text} (kv : Text × Text) (n : Nat), Repr t c₀ →
    (∀ n, levels n ≤ t.maxLevel) → c.Pairwise (fun a b => a.key < b.key) →
    (∀ a ∈ c₀, ∀ b ∈ c, a.key < b.key) →
    ∃ t' c', loadLines levels (c.map lineOf) kv n t = some t' ∧ Repr t' (c₀ ++ c') ∧
      c'.map (fun e => (e.key, e.value)) =
        (c.filter fun e => !e.value.isEmpty).map fun e => (e.key, e.value) := by
  intro c
  induction c with
  | nil =>
      intro c₀ t kv n hr _ _ _
      exact ⟨t, [], rfl, by rwa [List.append_nil], rfl⟩
  | cons e c ih =>
      intro c₀ t kv n hr hlevels hsorted hbelow
      obtain ⟨hfirst, hsorted⟩ := List.pairwise_cons.mp hsorted
      rw [List.map_cons, loadLines, getKeyValueFromString_lineOf]
      by_cases hempty : e.value = []
      · rw [if_pos (.inr hempty), List.filter_cons_of_neg (by simp [hempty])]
        exact ih _ n hr hlevels hsorted fun a ha b hb => hbelow a ha b (List.mem_cons_of_mem e hb)
      · have hnone : ¬ (showInt e.key = [] ∨ e.value = []) := by
          rintro (h | h)
          · exact showInt_ne_nil _ h
          · exact hempty h
        have hr₀ : Repr t (c₀ ++ []) := by rwa [List.append_nil]
        obtain ⟨t₁, hinsert, hmax, hr₁⟩ := insertElement_new hr₀ e.value (hlevels n)
          (fun a ha => hbelow a ha e List.mem_cons_self) (fun a ha => absurd ha List.not_mem_nil)
        obtain ⟨t', c', hload, hr', hc'⟩ := ih (showInt e.key, e.value) (n + 1) hr₁
          (fun n => by rw [hmax]; exact hlevels n) hsorted (fun a ha b hb => by
            rcases List.mem_append.mp ha with ha | ha
            · exact hbelow a ha b (List.mem_cons_of_mem e hb)
            · rw [List.mem_singleton.mp ha]
              exact hfirst b hb)
        refine ⟨t', _, ?_, by rwa [List.append_assoc] at hr', ?_⟩
        · rw [if_neg hnone, stoi_showInt, Option.bind_some, hinsert, Option.bind_some]
          exact hload
        · rw [List.filter_cons_of_pos (by simp [hempty]), List.map_cons, ← hc']
          rfl

/-- The list has an element with the key and the value. -/
def Holds {K V : Type} (s : SkipList K V) (k : K) (v : V) : Prop :=
  ∃ p x, p ≠ s.header ∧ s.heap.get p = some x ∧ x.key = k ∧ x.value = v

theorem Repr.holds_iff {K V : Type} [LinearOrder K] {s : SkipList K V} {c : List (Item K V)}
    (hr : Repr s c) {k : K} {v : V} : s.Holds k v ↔ ∃ e ∈ c, e.key = k ∧ e.value = v := by
  constructor
  · rintro ⟨p, x, hne, hx, hkey, hvalue⟩
    have hsome : info s.heap p ≠ none := by
      rw [info, hx]
      simp
    rcases hr.only p hsome with hp | hp
    · exact absurd hp hne
    · obtain ⟨e, he, rfl⟩ := List.mem_map.mp hp
      obtain ⟨y, hy, hykey, hyvalue, -⟩ := get_of_info (hr.items e he)
      cases hx.symm.trans hy
      exact ⟨e, he, hykey.symm.trans hkey, hyvalue.symm.trans hvalue⟩
  · rintro ⟨e, he, hkey, hvalue⟩
    obtain ⟨x, hx, hxkey, hxvalue, -⟩ := get_of_info (hr.items e he)
    refine ⟨e.ptr, x, ?_, hx, hxkey.trans hkey, hxvalue.trans hvalue⟩
    intro heq
    exact hr.fresh (heq ▸ List.mem_map_of_mem he)

theorem run_repr {K V : Type} [LinearOrder K] {maxLevel : Nat} {k : K} {v : V}
    {ls : List (Op K V × Outcome V)} {s : SkipList K V}
    (h : Run (fun s l s' => Step s l s' ∧ s.Allowed l.1) (new maxLevel k v) ls s) :
    ∃ c, Repr s c := by
  have hrun : ∃ c f, Repr s c ∧ Rel c f := by
    refine h.state_inv (I := fun s => ∃ c f, Repr s c ∧ Rel c f)
      ⟨[], _, new_spec maxLevel k v⟩ ?_
    rintro s l s' ⟨c, f, hr, hrel⟩ ⟨hs, hallowed⟩
    obtain ⟨out, s'', f', c', hexec, -, -, hr', hrel'⟩ := exec_spec hr hrel hallowed
    rw [Step, hexec] at hs
    cases hs
    exact ⟨c', f', hr', hrel'⟩
  obtain ⟨c, f, hr, -⟩ := hrun
  exact ⟨c, hr⟩

/-- What is loaded from the file of a list into an empty one are its elements with a value
that is not empty. -/
theorem load_dump {maxLevel maxLevel' : Nat} {k k' : IntKey} {v v' : Text}
    {ls ls' : List (Op IntKey Text × Outcome Text)} {s t : SkipList IntKey Text}
    (hs : Run (fun s l s' => Step s l s' ∧ s.Allowed l.1) (new maxLevel k v) ls s)
    (ht : Run (fun s l s' => Step s l s' ∧ s.Allowed l.1) (new maxLevel' k' v') ls' t)
    (hvalues : ∀ k v, s.Holds k v → '\n' ∉ v) (hempty : t.elementCount = 0)
    {levels : Nat → Nat} (hlevels : ∀ n, levels n ≤ t.maxLevel) :
    ∃ file t', s.dumpFile = some file ∧ t.loadFile levels file = some t' ∧
      (∃ chain, t'.Layered chain) ∧ ∀ k v, t'.Holds k v ↔ s.Holds k v ∧ v ≠ [] := by
  obtain ⟨c, hr⟩ := run_repr hs
  obtain ⟨c₀, hr₀⟩ := run_repr ht
  obtain rfl : c₀ = [] := List.length_eq_zero_iff.mp (hr₀.count.symm.trans hempty)
  have hlines : linesFrom [] (c.flatMap fun e => lineOf e ++ ['\n']) = c.map lineOf :=
    linesFrom_flatMap fun e he => hvalues e.key e.value (hr.holds_iff.mpr ⟨e, he, rfl, rfl⟩)
  obtain ⟨t', c', hload, hr', hc'⟩ := loadLines_eq ([], []) 0 hr₀ hlevels hr.sorted
    fun a ha => absurd ha List.not_mem_nil
  refine ⟨_, t', hr.dumpFile, ?_, ⟨_, hr'.layered⟩, fun k v => ?_⟩
  · rw [loadFile, hlines]
    exact hload
  · have hmem : (∃ e ∈ c', e.key = k ∧ e.value = v) ↔
        (k, v) ∈ (c.filter fun e => !e.value.isEmpty).map fun e => (e.key, e.value) := by
      rw [← hc', List.mem_map]
      simp only [Prod.mk.injEq]
    rw [hr'.holds_iff, List.nil_append, hmem, hr.holds_iff, List.mem_map]
    constructor
    · rintro ⟨e, he, heq⟩
      obtain ⟨he, hne⟩ := List.mem_filter.mp he
      obtain ⟨rfl, rfl⟩ := Prod.mk.inj heq
      exact ⟨⟨e, he, rfl, rfl⟩, by simpa using hne⟩
    · rintro ⟨⟨e, he, rfl, rfl⟩, hne⟩
      exact ⟨e, List.mem_filter.mpr ⟨he, by simpa using hne⟩, rfl⟩

/-- A negative key, a value with a separator in it, and an empty one. -/
theorem load_dump_three : ∃ s : SkipList IntKey Text,
    Run (fun s l s' => Step s l s' ∧ s.Allowed l.1) (new 3 ⟨0, by decide⟩ [])
      [(.insert ⟨7, by decide⟩ ['x', ':', 'y'] 1, .inserted 0),
        (.insert ⟨-2147483648, by decide⟩ ['a'] 0, .inserted 0),
        (.insert ⟨3, by decide⟩ [] 2, .inserted 0)] s ∧
    ∃ file t', s.dumpFile = some file ∧
      (new 2 ⟨0, by decide⟩ []).loadFile (fun n => n % 3) file = some t' ∧
      (∃ chain, t'.Layered chain) ∧ ∀ k v, t'.Holds k v ↔ s.Holds k v ∧ v ≠ [] := by
  have hexec : (Run.exec stepFn (fun s l => s.Allowed l.1) (new 3 (⟨0, by decide⟩ : IntKey) [])
      [(.insert ⟨7, by decide⟩ ['x', ':', 'y'] 1, .inserted 0),
        (.insert ⟨-2147483648, by decide⟩ ['a'] 0, .inserted 0),
        (.insert ⟨3, by decide⟩ [] 2, .inserted 0)]).any fun s : SkipList IntKey Text =>
        decide (s.heap.next = 4) &&
          (List.range 4).all fun p => (s.heap.get p).all fun x => !x.value.contains '\n' := by
    decide +kernel
  obtain ⟨s, hs, hfacts⟩ := (Option.any_eq_true _ _).mp hexec
  rw [Bool.and_eq_true, decide_eq_true_eq, List.all_eq_true] at hfacts
  obtain ⟨hnext, hvalues⟩ := hfacts
  have hrun : Run (fun s l s' => Step s l s' ∧ s.Allowed l.1) (new 3 (⟨0, by decide⟩ : IntKey) [])
      _ s := (Run.of_exec hs).imp fun _ _ _ h => ⟨step_of_stepFn h.1, h.2⟩
  refine ⟨s, hrun, load_dump hrun .nil ?_ rfl fun n => ?_⟩
  · rintro k v ⟨p, x, -, hx, -, rfl⟩
    have hp : p < 4 := by
      by_contra hge
      rw [Heap.get, s.heap.fresh p (by omega)] at hx
      cases hx
    have hall := hvalues p (List.mem_range.mpr hp)
    rw [hx] at hall
    simpa using hall
  · show n % 3 ≤ 2
    omega

end SkipList

end Ccbase.Application
