import Ccbase.Lib.Heap
import Ccbase.Lib.Links
import Ccbase.Lib.Run
import Mathlib.Order.Defs.LinearOrder

/-!
# `SkipList`

A node of level `l` has forward pointers for the levels `0` to `l`, and is in the
list of each of these levels. A search goes along the highest level as far as it can
and then one level down, and remembers where it left each level; insertion and
deletion relink there.

A call is `none` if it reads through a pointer that points to no node, or a forward
pointer that the node does not have. `delete_element` also writes `prev` of the next
node, and does so when there is none: this write has no effect here and sets `fault`.
-/

namespace Ccbase.Application

open Ccbase.Lib

structure Node (K V : Type) where
  key : K
  value : V
  nodeLevel : Nat
  forward : Nat → Option Nat
  prev : Option Nat

/-- `elementCount` is an `int` in the code, so it is right as long as a list has less than `2 ^ 31`
nodes. -/
structure SkipList (K V : Type) where
  heap : Heap (Node K V)
  maxLevel : Nat
  skipListLevel : Nat
  header : Nat
  elementCount : Nat
  fault : Bool

section Heap

variable {K V : Type}

def readForward (h : Heap (Node K V)) (p i : Nat) : Option (Option Nat) :=
  (h.get p).bind fun x => if i ≤ x.nodeLevel then some (x.forward i) else none

def setForward (h : Heap (Node K V)) (p i : Nat) (q : Option Nat) : Heap (Node K V) :=
  h.modify p fun x => { x with forward := Function.update x.forward i q }

def writeForward (h : Heap (Node K V)) (p i : Nat) (q : Option Nat) : Option (Heap (Node K V)) :=
  (readForward h p i).map fun _ => setForward h p i q

def setPrev (h : Heap (Node K V)) (p : Nat) (q : Option Nat) : Heap (Node K V) :=
  h.modify p fun x => { x with prev := q }

end Heap

namespace SkipList

variable {K V : Type} [LinearOrder K]

/-- The constructor; the header has some key and value. -/
def new (maxLevel : Nat) (k : K) (v : V) : SkipList K V where
  heap := Heap.empty.new ⟨k, v, maxLevel, fun _ => none, none⟩
  maxLevel := maxLevel
  skipListLevel := 0
  header := 0
  elementCount := 0
  fault := false

/-- The loop along level `i`. -/
def advance (h : Heap (Node K V)) (key : K) (i : Nat) : Nat → Nat → Option Nat
  | 0, _ => none
  | rounds + 1, current =>
      (readForward h current i).bind fun next =>
        match next with
        | none => some current
        | some p =>
            (h.get p).bind fun x =>
              if x.key < key then advance h key i rounds p else some current

/-- The loop over the levels below `n`: where it ends, and `update`. -/
def descend (s : SkipList K V) (key : K) :
    Nat → Nat → (Nat → Option Nat) → Option (Nat × (Nat → Option Nat))
  | 0, current, update => some (current, update)
  | i + 1, current, update =>
      (advance s.heap key i (s.elementCount + 1) current).bind fun current =>
        descend s key i current (Function.update update i (some current))

/-- The search that all calls begin with, from the highest level. -/
def locate (s : SkipList K V) (key : K) : Option (Nat × (Nat → Option Nat)) :=
  s.descend key (s.skipListLevel + 1) s.header fun _ => none

/-- The node behind `current` in level 0, if it has the key. -/
def matching (s : SkipList K V) (key : K) (current : Nat) : Option (Option Nat) :=
  (readForward s.heap current 0).bind fun next =>
    match next with
    | none => some none
    | some p => (s.heap.get p).map fun x => if x.key = key then some p else none

/-- `search_element`: the node that is found. -/
def searchElement (s : SkipList K V) (key : K) : Option (Option Nat) :=
  (s.locate key).bind fun r => s.matching key r.1

/-- Node `n` is put behind `u` in level `i`. -/
def linkLevel (h : Heap (Node K V)) (u n i : Nat) : Option (Heap (Node K V)) :=
  (readForward h u i).bind fun next =>
    (writeForward h n i next).bind fun h => writeForward h u i (some n)

/-- In level 0 `prev` is written too. -/
def linkBottom (h : Heap (Node K V)) (u n : Nat) : Option (Heap (Node K V)) :=
  (readForward h u 0).bind fun next =>
    (writeForward h n 0 next).bind fun h =>
      let h := if next = none then h else setPrev h u (some n)
      (writeForward h u 0 (some n)).map fun h => setPrev h n (some u)

/-- The levels from 1 to `l`. -/
def linkLevels (update : Nat → Option Nat) (n : Nat) :
    Nat → Heap (Node K V) → Option (Heap (Node K V))
  | 0, h => some h
  | l + 1, h =>
      (linkLevels update n l h).bind fun h =>
        (update (l + 1)).bind fun u => linkLevel h u n (l + 1)

/-- `insert_element`, with the level that `get_random_level` returns. -/
def insertElement (s : SkipList K V) (key : K) (value : V) (randomLevel : Nat) :
    Option (Nat × SkipList K V) :=
  (s.locate key).bind fun (current, update) =>
    (s.matching key current).bind fun found =>
      match found with
      | some _ => some (1, s)
      | none =>
          let update := fun i =>
            if s.skipListLevel < i ∧ i ≤ randomLevel then some s.header else update i
          let node := s.heap.next
          let h := s.heap.new ⟨key, value, randomLevel, fun _ => none, none⟩
          (update 0).bind fun u =>
            (linkBottom h u node).bind fun h =>
              (linkLevels update node randomLevel h).map fun h =>
                (0, { s with
                  heap := h
                  skipListLevel := max s.skipListLevel randomLevel
                  elementCount := s.elementCount + 1 })

/-- `current` is taken out of the levels from `i` on, up to the first it is not in. -/
def unlinkLevels (update : Nat → Option Nat) (current : Nat) :
    Nat → Nat → Heap (Node K V) → Option (Heap (Node K V))
  | 0, _, h => some h
  | rounds + 1, i, h =>
      (update i).bind fun u =>
        (readForward h u i).bind fun next =>
          if next ≠ some current then some h
          else
            (readForward h current i).bind fun next =>
              (writeForward h u i next).bind fun h =>
                unlinkLevels update current rounds (i + 1) h

/-- Levels without elements are removed. -/
def lowerLevel (h : Heap (Node K V)) (header : Nat) : Nat → Option Nat
  | 0 => some 0
  | l + 1 =>
      (readForward h header (l + 1)).bind fun next =>
        if next = none then lowerLevel h header l else some (l + 1)

/-- `delete_element`. -/
def deleteElement (s : SkipList K V) (key : K) : Option (SkipList K V) :=
  (s.locate key).bind fun (current, update) =>
    (s.matching key current).bind fun found =>
      match found with
      | none => some s
      | some current =>
          (unlinkLevels update current (s.skipListLevel + 1) 0 s.heap).bind fun h =>
            (lowerLevel h s.header s.skipListLevel).bind fun level =>
              (h.get current).map fun x =>
                let next := x.forward 0
                let h := if next = some s.header then h
                  else h.modify? next fun y => { y with prev := x.prev }
                { s with
                  heap := h.delete current
                  skipListLevel := level
                  elementCount := s.elementCount - 1
                  -- the write goes through a null pointer
                  fault := s.fault || next.isNone }

end SkipList

end Ccbase.Application
