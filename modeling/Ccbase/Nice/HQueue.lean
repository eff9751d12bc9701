import Ccbase.Lib.Links
import Ccbase.Lib.Run
import Mathlib.Algebra.Order.Ring.Nat

/-!
# `HQueue` in one thread

The queue is a linked list in an array of nodes that are used again. The first node
of the list is a dummy; its value has been taken, and it is given back when the next
value is taken. `free_index` is a hint where to look for a free node.

An index of `-1` is `none`. Versions count without bound; the code has them in 32
bits, and comparisons see only these.
-/

namespace Ccbase.Nice

open Ccbase.Lib

structure Pointer where
  index : Option Nat
  version : Nat
  deriving DecidableEq, Repr

/-- `operator==`. -/
def Pointer.same (p q : Pointer) : Bool :=
  decide (p.index = q.index ∧ p.version % 2 ^ 32 = q.version % 2 ^ 32)

/-- What `compare_exchange_strong` leaves in a variable. -/
def Pointer.exchange (current expected desired : Pointer) : Pointer :=
  if current.same expected then desired else current

structure HQNode (T : Type) where
  next : Pointer
  value : Option T
  free : Bool

structure HQueue (T : Type) where
  nodes : Nat → HQNode T
  queueSize : Nat
  qhead : Pointer
  qtail : Pointer
  freeIndex : Nat

namespace HQueue

variable {T : Type}

/-- `Init` of a queue that has no nodes yet. -/
def init (sz : Int) : Option (HQueue T) :=
  if sz ≤ 0 then none
  else
    some
      { nodes := fun i => ⟨⟨none, 0⟩, none, i ≠ 0⟩
        queueSize := sz.toNat
        qhead := ⟨some 0, 0⟩
        qtail := ⟨some 0, 0⟩
        freeIndex := 1 }

def setNode (q : HQueue T) (i : Nat) (n : HQNode T) : HQueue T :=
  { q with nodes := Function.update q.nodes i n }

/-- The first free node of the next ones. -/
def scan (q : HQueue T) : Nat → Nat → Option Nat
  | 0, _ => none
  | rounds + 1, nodeIdx =>
      if (q.nodes nodeIdx).free = true then some nodeIdx else scan q rounds (nodeIdx + 1)

/-- Node `i` is taken by an `Enqueue`. -/
def claim (q : HQueue T) (i : Nat) : HQueue T :=
  { q.setNode i { q.nodes i with free := false } with freeIndex := i + 1 }

/-- The search of `Enqueue` for a free node. -/
def takeNode (q : HQueue T) : Option Nat × HQueue T :=
  match q.scan (q.queueSize - q.freeIndex) q.freeIndex with
  | some i => (some i, q.claim i)
  | none =>
      match q.scan (q.queueSize - 1) 1 with
      | some i => (some i, q.claim i)
      | none => (none, { q with freeIndex := 1 })

/-- The node that was taken is filled. -/
def fill (q : HQueue T) (i : Nat) (t : T) : HQueue T :=
  q.setNode i { q.nodes i with value := some t, next := ⟨none, 0⟩ }

/-- The loop of `Enqueue`; `none` if it does not end within the rounds. -/
def enqueueLoop (nodeIdx : Nat) : Nat → HQueue T → Option (HQueue T)
  | 0, _ => none
  | rounds + 1, q =>
      let tail := q.qtail
      match tail.index with
      | none => enqueueLoop nodeIdx rounds q
      | some t =>
          let next := (q.nodes t).next
          if tail.same q.qtail = false then enqueueLoop nodeIdx rounds q
          else
            match next.index with
            | some n =>
                enqueueLoop nodeIdx rounds
                  { q with qtail := q.qtail.exchange tail ⟨some n, tail.version + 1⟩ }
            | none =>
                if (q.nodes t).next.same next then
                  let linked := q.setNode t
                    { q.nodes t with next := ⟨some nodeIdx, next.version + 1⟩ }
                  some { linked with
                    qtail := q.qtail.exchange tail ⟨some nodeIdx, tail.version + 1⟩ }
                else enqueueLoop nodeIdx rounds q

/-- `Enqueue`; the value is not null. -/
def enqueue (q : HQueue T) (t : T) : Option (Bool × HQueue T) :=
  match q.takeNode with
  | (none, q) => some (false, q)
  | (some i, q) =>
      (enqueueLoop i (q.queueSize + 1) (q.fill i t)).map fun q => (true, q)

def dequeueLoop : Nat → HQueue T → Option (Option T × HQueue T)
  | 0, _ => none
  | rounds + 1, q =>
      let head := q.qhead
      let tail := q.qtail
      match head.index with
      | none => dequeueLoop rounds q
      | some h =>
          let next := (q.nodes h).next
          if head.same q.qhead = false then dequeueLoop rounds q
          else if head.index = tail.index then
            match next.index with
            | none => some (none, q)
            | some n =>
                dequeueLoop rounds
                  { q with qtail := q.qtail.exchange tail ⟨some n, tail.version + 1⟩ }
          else
            match next.index with
            | none => dequeueLoop rounds q
            | some n =>
                if q.qhead.same head then
                  let moved := { q with qhead := ⟨some n, head.version + 1⟩ }
                  some ((q.nodes n).value, moved.setNode h { q.nodes h with free := true })
                else dequeueLoop rounds q

def dequeue (q : HQueue T) : Option (Option T × HQueue T) := dequeueLoop (q.queueSize + 1) q

def empty (q : HQueue T) : Bool :=
  let head := q.qhead
  let tail := q.qtail
  match head.index with
  | none => false
  | some h =>
      head.same q.qhead && decide (head.index = tail.index) &&
        decide ((q.nodes h).next.index = none)

end HQueue

/-! ## The list of values -/

/-- The calls of a queue. -/
inductive Op (T : Type) where
  | enqueue (t : T)
  | dequeue
  | empty
  deriving DecidableEq, Repr

/-- What a call returns; `none` is the null pointer. -/
inductive Outcome (T : Type) where
  | enqueued (b : Bool)
  | dequeued (r : Option T)
  | empty (b : Bool)
  deriving DecidableEq, Repr

/-- What each call does to a list of values, of which some calls may add none. -/
inductive Spec {T : Type} : List T → Op T → Outcome T → List T → Prop where
  | enqueued {l : List T} {t : T} : Spec l (.enqueue t) (.enqueued true) (l ++ [t])
  | refused {l : List T} {t : T} : Spec l (.enqueue t) (.enqueued false) l
  | dequeued {l : List T} {t : T} : Spec (t :: l) .dequeue (.dequeued (some t)) l
  | nothing : Spec [] .dequeue (.dequeued none) []
  | empty {l : List T} : Spec l .empty (.empty l.isEmpty) l

namespace HQueue

variable {T : Type} {q : HQueue T}

def link (q : HQueue T) (i : Nat) : Option Nat := (q.nodes i).next.index

/-- The list begins behind the dummy `d`, has the nodes `c` and the values `l`. -/
structure Holds (q : HQueue T) (d : Nat) (c : List Nat) (l : List T) : Prop where
  head : q.qhead.index = some d
  tail : q.qtail.index = some (c.getLastD d)
  links : Links q.link d c none
  nodup : (d :: c).Nodup
  bound : ∀ i ∈ d :: c, i < q.queueSize
  values : c.map (fun i => (q.nodes i).value) = l.map some
  free : ∀ i < q.queueSize, (q.nodes i).free = true ↔ i ∉ d :: c
  hint : 1 ≤ q.freeIndex

/-- The list of values of a queue. -/
def Rel (q : HQueue T) (l : List T) : Prop := ∃ d c, q.Holds d c l

@[simp] theorem same_self (p : Pointer) : p.same p = true := by
  simp [Pointer.same]

theorem scan_spec (q : HQueue T) : ∀ (rounds i : Nat),
    (∃ j, q.scan rounds i = some j ∧ i ≤ j ∧ j < i + rounds ∧ (q.nodes j).free = true) ∨
    (q.scan rounds i = none ∧ ∀ j, i ≤ j → j < i + rounds → (q.nodes j).free = false) := by
  intro rounds
  induction rounds with
  | zero =>
      intro i
      exact Or.inr ⟨rfl, fun j _ _ => by omega⟩
  | succ rounds ih =>
      intro i
      rw [scan]
      by_cases hfree : (q.nodes i).free = true
      · rw [if_pos hfree]
        exact Or.inl ⟨i, rfl, Nat.le_refl i, by omega, hfree⟩
      · rw [if_neg hfree]
        rcases ih (i + 1) with ⟨j, hscan, hij, hj, hjfree⟩ | ⟨hscan, hall⟩
        · exact Or.inl ⟨j, hscan, by omega, by omega, hjfree⟩
        · refine Or.inr ⟨hscan, fun j hij hj => ?_⟩
          by_cases hji : j = i
          · rw [hji]
            simpa using hfree
          · exact hall j (by omega) (by omega)

/-- A free node other than the first is found if there is one. -/
theorem takeNode_spec (hhint : 1 ≤ q.freeIndex) :
    (∃ i, q.takeNode = (some i, q.claim i) ∧ 1 ≤ i ∧ i < q.queueSize ∧
      (q.nodes i).free = true) ∨
    (q.takeNode = (none, { q with freeIndex := 1 }) ∧
      ∀ i, 1 ≤ i → i < q.queueSize → (q.nodes i).free = false) := by
  rw [takeNode]
  rcases q.scan_spec (q.queueSize - q.freeIndex) q.freeIndex with
    ⟨i, hscan, hi, hlt, hfree⟩ | ⟨hscan, -⟩
  · rw [hscan]
    exact Or.inl ⟨i, rfl, by omega, by omega, hfree⟩
  · rw [hscan]
    rcases q.scan_spec (q.queueSize - 1) 1 with ⟨i, hscan', hi, hlt, hfree⟩ | ⟨hscan', hall⟩
    · simp only [hscan']
      exact Or.inl ⟨i, rfl, hi, by omega, hfree⟩
    · simp only [hscan']
      exact Or.inr ⟨trivial, fun i hi hlt => hall i hi (by omega)⟩

/-- Node `i` is filled with `t` and not yet linked. -/
structure Ready (q : HQueue T) (d : Nat) (c : List Nat) (l : List T) (i : Nat) (t : T) : Prop where
  head : q.qhead.index = some d
  tail : q.qtail.index = some (c.getLastD d)
  links : Links q.link d c none
  nodup : (d :: (c ++ [i])).Nodup
  bound : ∀ j ∈ d :: (c ++ [i]), j < q.queueSize
  values : c.map (fun j => (q.nodes j).value) = l.map some
  node : q.nodes i = ⟨⟨none, 0⟩, some t, false⟩
  free : ∀ j < q.queueSize, (q.nodes j).free = true ↔ j ∉ d :: (c ++ [i])
  hint : 1 ≤ q.freeIndex

theorem Holds.ready {d i : Nat} {c : List Nat} {l : List T} (h : q.Holds d c l)
    (hi : i < q.queueSize) (hfree : (q.nodes i).free = true) (t : T) :
    ((q.claim i).fill i t).Ready d c l i t := by
  have hnot : i ∉ d :: c := (h.free i hi).mp hfree
  have hnode : ((q.claim i).fill i t).nodes i = ⟨⟨none, 0⟩, some t, false⟩ := by
    simp [fill, setNode, claim]
  have hother : ∀ {j : Nat}, j ≠ i → ((q.claim i).fill i t).nodes j = q.nodes j := by
    intro j hj
    simp [fill, setNode, claim, hj]
  have hkeep : ∀ {j : Nat}, j ∈ d :: c → ((q.claim i).fill i t).nodes j = q.nodes j := by
    intro j hj
    refine hother ?_
    rintro rfl
    exact hnot hj
  refine ⟨h.head, h.tail, ?_, ?_, ?_, ?_, hnode, ?_, Nat.le_add_left 1 i⟩
  · refine h.links.congr fun j hj => ?_
    rw [link, link, hkeep hj]
  · rw [← List.cons_append]
    refine List.nodup_append.mpr ⟨h.nodup, List.nodup_singleton i, fun j hj k hk => ?_⟩
    rw [List.mem_singleton] at hk
    rintro rfl
    exact hnot (hk ▸ hj)
  · intro j hj
    rw [← List.cons_append] at hj
    rcases List.mem_append.mp hj with hj | hj
    · exact h.bound j hj
    · rw [List.mem_singleton.mp hj]
      exact hi
  · rw [← h.values]
    refine List.map_congr_left fun j hj => ?_
    rw [hkeep (List.mem_cons_of_mem d hj)]
  · intro j hj
    rw [← List.cons_append, List.mem_append, List.mem_singleton]
    by_cases hji : j = i
    · simp [hji, hnode]
    · rw [hother hji, h.free j hj]
      simp [hji]

/-- The loop of `Enqueue` links the node in its first round. -/
theorem Ready.enqueueLoop {d i : Nat} {c : List Nat} {l : List T} {t : T}
    (h : q.Ready d c l i t) (rounds : Nat) :
    ∃ q', q.enqueueLoop i (rounds + 1) = some q' ∧ q'.queueSize = q.queueSize ∧
      q'.Holds d (c ++ [i]) (l ++ [t]) := by
  have hmem : c.getLastD d ∈ d :: c := Links.getLastD_mem
  have hnd : (d :: c).Nodup := h.nodup.sublist (by simp)
  have hnot : i ∉ d :: c := by
    have hnodup := h.nodup
    rw [← List.cons_append] at hnodup
    intro hi
    exact (List.nodup_append.mp hnodup).2.2 i hi i (List.mem_singleton.mpr rfl) rfl
  have hlast : (q.nodes (c.getLastD d)).next.index = none := h.links.last
  have htail := h.tail
  -- the last node gets the link, and nothing else changes
  obtain ⟨q', hq', hsize, hhead, htail', hhint, hz, hother⟩ : ∃ q', q.enqueueLoop i (rounds + 1) =
      some q' ∧ q'.queueSize = q.queueSize ∧ q'.qhead = q.qhead ∧ q'.qtail.index = some i ∧
      q'.freeIndex = q.freeIndex ∧
      q'.nodes (c.getLastD d) = { q.nodes (c.getLastD d) with
        next := ⟨some i, (q.nodes (c.getLastD d)).next.version + 1⟩ } ∧
      ∀ j, j ≠ c.getLastD d → q'.nodes j = q.nodes j := by
    rw [HQueue.enqueueLoop]
    simp only [htail, same_self, hlast, Bool.true_eq_false, if_false, if_true]
    refine ⟨_, rfl, rfl, rfl, ?_, rfl, Function.update_self .., fun j hj => ?_⟩
    · simp [Pointer.exchange]
    · exact Function.update_of_ne hj ..
  have hne : i ≠ c.getLastD d := by
    intro heq
    exact hnot (heq ▸ hmem)
  have hvalue : ∀ j, (q'.nodes j).value = (q.nodes j).value := by
    intro j
    by_cases hj : j = c.getLastD d
    · rw [hj, hz]
    · rw [hother j hj]
  have hfree : ∀ j, (q'.nodes j).free = (q.nodes j).free := by
    intro j
    by_cases hj : j = c.getLastD d
    · rw [hj, hz]
    · rw [hother j hj]
  refine ⟨q', hq', hsize, by rw [hhead, h.head], ?_, ?_, h.nodup, ?_, ?_, ?_,
    by rw [hhint]; exact h.hint⟩
  · rw [htail', List.getLastD_concat]
  · refine h.links.push hnd ?_ ?_ fun j _ hj => ?_
    · rw [link, hz]
    · rw [link, hother i hne, h.node]
    · rw [link, link, hother j hj]
  · rw [hsize]
    exact h.bound
  · rw [List.map_append, List.map_append]
    simp only [hvalue, h.values, List.map_cons, List.map_nil, h.node]
  · intro j hj
    rw [hfree]
    exact h.free j (by rw [← hsize]; exact hj)

/-- `Enqueue` puts the value into a free node other than the first, if there is one. -/
theorem Holds.enqueue {d : Nat} {c : List Nat} {l : List T} (h : q.Holds d c l) (t : T) :
    (∃ i q', q.enqueue t = some (true, q') ∧ 1 ≤ i ∧ q'.queueSize = q.queueSize ∧
      q'.Holds d (c ++ [i]) (l ++ [t])) ∨
    (∃ q', q.enqueue t = some (false, q') ∧ q'.queueSize = q.queueSize ∧ q'.Holds d c l ∧
      ∀ i, 1 ≤ i → i < q.queueSize → i ∈ d :: c) := by
  rcases takeNode_spec h.hint with ⟨i, htake, hi, hlt, hfree⟩ | ⟨htake, hall⟩
  · obtain ⟨q', hloop, hsize, hq'⟩ :=
      (h.ready hlt hfree t).enqueueLoop (q.claim i).queueSize
    refine Or.inl ⟨i, q', ?_, hi, hsize, hq'⟩
    simp only [HQueue.enqueue, htake, hloop, Option.map_some]
  · refine Or.inr ⟨{ q with freeIndex := 1 }, ?_, rfl, ?_, fun i hi hlt => ?_⟩
    · simp only [HQueue.enqueue, htake]
    · exact ⟨h.head, h.tail, h.links, h.nodup, h.bound, h.values, h.free, Nat.le_refl 1⟩
    · by_contra hnot
      have hfree := (h.free i hlt).mpr hnot
      rw [hall i hi hlt] at hfree
      cases hfree

theorem Holds.dequeue_nil {d : Nat} {l : List T} (h : q.Holds d [] l) :
    l = [] ∧ q.dequeue = some (none, q) := by
  have hhead := h.head
  have htail : q.qtail.index = some d := h.tail
  have hnext : (q.nodes d).next.index = none := h.links
  refine ⟨by simpa using h.values.symm, ?_⟩
  rw [HQueue.dequeue, dequeueLoop]
  simp only [hhead, htail, hnext, same_self, Bool.true_eq_false, if_false, if_true]

/-- `Dequeue` makes the node of the value the dummy. -/
theorem Holds.dequeue_cons {d n : Nat} {c : List Nat} {l : List T} (h : q.Holds d (n :: c) l) :
    ∃ t l' q', l = t :: l' ∧ q.dequeue = some (some t, q') ∧ q'.queueSize = q.queueSize ∧
      q'.Holds n c l' := by
  have hhead := h.head
  cases l with
  | nil => simpa using h.values
  | cons t l =>
      have hmem : c.getLastD n ∈ n :: c := Links.getLastD_mem
      have hdn : d ∉ n :: c := (List.nodup_cons.mp h.nodup).1
      have htail : q.qtail.index = some (c.getLastD n) := by
        rw [h.tail, List.getLastD_cons]
      have hne : d ≠ c.getLastD n := by
        intro heq
        exact hdn (heq ▸ hmem)
      have hnext : (q.nodes d).next.index = some n := h.links.1
      have hvalues : (q.nodes n).value = some t ∧
          c.map (fun i => (q.nodes i).value) = l.map some := by
        simpa using h.values
      have hdeq : q.dequeue = some ((q.nodes n).value, HQueue.setNode
          { q with qhead := ⟨some n, q.qhead.version + 1⟩ } d { q.nodes d with free := true }) := by
        rw [HQueue.dequeue, dequeueLoop]
        simp only [hhead, htail, hnext, same_self, Bool.true_eq_false, Option.some.injEq, hne,
          if_false, if_true]
      rw [hvalues.1] at hdeq
      refine ⟨t, l, _, rfl, hdeq, rfl, rfl, htail, ?_, (List.nodup_cons.mp h.nodup).2,
        ?_, ?_, ?_, h.hint⟩
      · refine h.links.2.congr fun i hi => ?_
        have hid : i ≠ d := by
          rintro rfl
          exact hdn hi
        simp [link, setNode, hid]
      · intro i hi
        exact h.bound i (List.mem_cons_of_mem d hi)
      · rw [← hvalues.2]
        refine List.map_congr_left fun i hi => ?_
        have hid : i ≠ d := by
          rintro rfl
          exact hdn (List.mem_cons_of_mem n hi)
        simp [setNode, hid]
      · intro i hi
        by_cases hid : i = d
        · rw [hid]
          simp only [setNode, Function.update_self, true_iff]
          exact hdn
        · have hfree := h.free i hi
          rw [List.mem_cons, not_or] at hfree
          simp only [setNode, Function.update_of_ne hid]
          rw [hfree]
          simp [hid]

theorem enqueue_spec {l : List T} (h : q.Rel l) (t : T) :
    ∃ b q' l', q.enqueue t = some (b, q') ∧ Spec l (.enqueue t) (.enqueued b) l' ∧ q'.Rel l' := by
  obtain ⟨d, c, h⟩ := h
  rcases h.enqueue t with ⟨i, q', hcall, -, -, hq'⟩ | ⟨q', hcall, -, hq', -⟩
  · exact ⟨true, q', _, hcall, .enqueued, d, _, hq'⟩
  · exact ⟨false, q', l, hcall, .refused, d, c, hq'⟩

theorem dequeue_spec {l : List T} (h : q.Rel l) :
    ∃ r q' l', q.dequeue = some (r, q') ∧ Spec l .dequeue (.dequeued r) l' ∧ q'.Rel l' := by
  obtain ⟨d, c, h⟩ := h
  cases c with
  | nil =>
      obtain ⟨rfl, hcall⟩ := h.dequeue_nil
      exact ⟨none, q, [], hcall, .nothing, d, [], h⟩
  | cons n c =>
      obtain ⟨t, l', q', rfl, hcall, -, hq'⟩ := h.dequeue_cons
      exact ⟨some t, q', l', hcall, .dequeued, n, c, hq'⟩

theorem empty_spec {l : List T} (h : q.Rel l) : q.empty = l.isEmpty := by
  obtain ⟨d, c, h⟩ := h
  have hhead := h.head
  cases c with
  | nil =>
      have htail : q.qtail.index = some d := h.tail
      have hnext : (q.nodes d).next.index = none := h.links
      have hl : l = [] := by simpa using h.values.symm
      simp [empty, hhead, htail, hnext, hl]
  | cons n c =>
      have hnext : (q.nodes d).next.index = some n := h.links.1
      cases l with
      | nil => simpa using h.values
      | cons t l => simp [empty, hhead, hnext]

/-! ## Runs -/

def exec (q : HQueue T) : Op T → Option (Outcome T × HQueue T)
  | .enqueue t => (q.enqueue t).map fun r => (.enqueued r.1, r.2)
  | .dequeue => q.dequeue.map fun r => (.dequeued r.1, r.2)
  | .empty => some (.empty q.empty, q)

theorem exec_spec {l : List T} (h : q.Rel l) (op : Op T) :
    ∃ out q' l', q.exec op = some (out, q') ∧ Spec l op out l' ∧ q'.Rel l' := by
  cases op with
  | enqueue t =>
      obtain ⟨b, q', l', hcall, hspec, hrel⟩ := enqueue_spec h t
      exact ⟨_, q', l', by rw [exec, hcall]; rfl, hspec, hrel⟩
  | dequeue =>
      obtain ⟨r, q', l', hcall, hspec, hrel⟩ := dequeue_spec h
      exact ⟨_, q', l', by rw [exec, hcall]; rfl, hspec, hrel⟩
  | empty =>
      refine ⟨_, q, l, rfl, ?_, h⟩
      rw [empty_spec h]
      exact .empty

theorem init_spec {sz : Int} (h : init sz = some q) : q.Rel [] := by
  rw [init] at h
  split at h
  · cases h
  · cases h
    refine ⟨0, [], rfl, rfl, rfl, List.nodup_singleton 0, ?_, rfl, ?_, Nat.le_refl 1⟩
    · intro i hi
      rw [List.mem_singleton.mp hi]
      show 0 < sz.toNat
      omega
    · intro i _
      simp

/-- A call with what it returns. -/
def Step (q : HQueue T) (l : Op T × Outcome T) (q' : HQueue T) : Prop :=
  q.exec l.1 = some (l.2, q')

/-- The call, if it returns what the label says. -/
def stepFn [DecidableEq T] (q : HQueue T) (l : Op T × Outcome T) : Option (HQueue T) :=
  (q.exec l.1).bind fun r => if r.1 = l.2 then some r.2 else none

theorem step_of_stepFn [DecidableEq T] {l : Op T × Outcome T} {q' : HQueue T}
    (h : q.stepFn l = some q') : Step q l q' := by
  obtain ⟨⟨out, q''⟩, hexec, h⟩ := Option.bind_eq_some_iff.mp h
  split at h
  · rename_i hout
    cases h
    rw [Step, hexec, ← hout]
  · cases h

end HQueue

/-- Every run of the calls in one thread is one of the list of values, with the same
results, and every call returns. -/
theorem hqueue_refines {T : Type} {sz : Int} {q₀ q : HQueue T} (hinit : HQueue.init sz = some q₀)
    {ls : List (Op T × Outcome T)} (h : Run HQueue.Step q₀ ls q) :
    (∃ l, Run (fun l call l' => Spec l call.1 call.2 l') [] ls l ∧ q.Rel l) ∧
      ∀ op, (q.exec op).isSome := by
  have hrun : ∃ l, Run (fun l call l' => Spec l call.1 call.2 l') [] ls l ∧ q.Rel l := by
    refine h.inv (I := fun ls q => ∃ l,
      Run (fun l call l' => Spec l call.1 call.2 l') [] ls l ∧ q.Rel l) ?_ ?_
    · exact ⟨[], .nil, HQueue.init_spec hinit⟩
    · rintro ls q ⟨op, out⟩ q' ⟨l, hl, hrel⟩ hstep
      obtain ⟨out', q'', l', hexec, hspec, hrel'⟩ := HQueue.exec_spec hrel op
      rw [HQueue.Step, hexec] at hstep
      cases hstep
      exact ⟨l', hl.snoc hspec, hrel'⟩
  obtain ⟨l, hl, hrel⟩ := hrun
  refine ⟨⟨l, hl, hrel⟩, fun op => ?_⟩
  obtain ⟨out, q', l', hexec, -⟩ := HQueue.exec_spec hrel op
  rw [hexec]
  rfl

/-- Three nodes, of which two are used in turn. -/
theorem hqueue_refines_reuse :
    ∃ q₀ q : HQueue Nat, HQueue.init 3 = some q₀ ∧
      Run HQueue.Step q₀
        [(.enqueue 5, .enqueued true), (.enqueue 6, .enqueued true),
          (.enqueue 7, .enqueued false), (.dequeue, .dequeued (some 5)),
          (.dequeue, .dequeued (some 6)), (.enqueue 8, .enqueued true),
          (.empty, .empty false), (.dequeue, .dequeued (some 8)),
          (.dequeue, .dequeued none)] q ∧ ∃ l, q.Rel l := by
  have hexec : ((HQueue.init 3).bind fun q₀ => Run.exec HQueue.stepFn (fun _ _ => True) q₀
      [(.enqueue 5, .enqueued true), (.enqueue 6, .enqueued true),
        (.enqueue 7, .enqueued false), (.dequeue, .dequeued (some 5)),
        (.dequeue, .dequeued (some 6)), (.enqueue 8, .enqueued true),
        (.empty, .empty false), (.dequeue, .dequeued (some 8)),
        (.dequeue, .dequeued (none : Option Nat))]).isSome := by decide +kernel
  obtain ⟨q, hq⟩ := Option.isSome_iff_exists.mp hexec
  obtain ⟨q₀, hinit, hq⟩ := Option.bind_eq_some_iff.mp hq
  have hrun : Run HQueue.Step q₀ _ q :=
    (Run.of_exec hq).imp fun _ _ _ h => HQueue.step_of_stepFn h.1
  obtain ⟨l, -, hrel⟩ := (hqueue_refines hinit hrun).1
  exact ⟨q₀, q, hinit, hrun, l, hrel⟩

end Ccbase.Nice
