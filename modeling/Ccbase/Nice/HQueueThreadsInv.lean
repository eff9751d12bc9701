import Ccbase.Lib.Sums
import Ccbase.Nice.HQueueThreads
import Mathlib.Algebra.Order.BigOperators.Group.Multiset

/-!
# Where the nodes of a shared `HQueue` are

A node is free, in the list from `qhead` on, or held by one thread: claimed for a value, or taken
from the front and not yet given back. `Enqueue` sets the next pointer of a node that is used again
back to what it was when the node was used for the first time. So a thread that has slept since
then can link its node behind one that is not in the list. Such nodes hang behind the node of a
thread, and come into the list with it.

That the nodes never form a ring is a matter of time. A node that hangs behind another one was
claimed earlier: whoever linked it had seen the other one in the list, after its own node was
claimed. `stamp` is the time of the claim.
-/

namespace Ccbase.Nice

open Ccbase.Lib

variable {n : Nat} {T : Type}

namespace Pc

/-- The node of an `Enqueue` that is complete, so that others may hang behind it. -/
def ready : Pc T → Option Nat
  | .readTail _ i | .readNext _ i _ | .testTail _ i _ _ | .helpTail _ i _ _
  | .linkNode _ i _ _ => some i
  | _ => none

/-- The node that a thread holds. -/
def root : Pc T → Option Nat
  | .writeHint _ i | .writeValue _ i | .writeNext _ i => some i
  | .readTail _ i | .readNext _ i _ | .testTail _ i _ _ | .helpTail _ i _ _
  | .linkNode _ i _ _ => some i
  | .freeHead head _ => head.index
  | _ => none

/-- The node that has got its value. -/
def filled : Pc T → Option (Nat × T)
  | .writeNext t i | .readTail t i | .readNext t i _ | .testTail t i _ _ | .helpTail t i _ _
  | .linkNode t i _ _ => some (i, t)
  | _ => none

theorem root_of_ready {p : Pc T} {i : Nat} (h : p.ready = some i) : p.root = some i := by
  cases p <;> first | exact h | cases h

theorem root_of_filled {p : Pc T} {i : Nat} {t : T} (h : p.filled = some (i, t)) :
    p.root = some i := by
  cases p <;> first | (cases h; rfl) | cases h

end Pc

/-- Where a node is. -/
inductive Place (n : Nat) where
  | free
  | listed
  | held (u : Fin n)
  deriving DecidableEq

/-- Node `a` is in the list. -/
def HQueue.Listed (q : HQueue T) (a : Nat) : Prop :=
  ∃ d ps, q.qhead.index = some d ∧ Links q.link d ps none ∧ a ∈ d :: ps

/-- The list behind the dummy node, what hangs behind the node of each thread, and the times of
the claims. -/
structure Layout (n : Nat) where
  dummy : Nat
  list : List Nat
  behind : Fin n → List Nat
  place : Nat → Place n
  stamp : Fin n → Nat

/-- Later than all claims. -/
def Layout.now (g : Layout n) : Nat := (List.ofFn g.stamp).foldr (fun a b => a + b) 1

theorem Layout.stamp_lt_now (g : Layout n) (u : Fin n) : g.stamp u < g.now :=
  lt_foldr_add (List.mem_ofFn.mpr ⟨u, rfl⟩)

namespace Threads

variable {s s' : Threads n T} {g g' : Layout n} {u v : Fin n}

def value (s : Threads n T) (i : Nat) : Option T := (s.queue.nodes i).value

/-- The values that were taken and those of the list. -/
def content (s : Threads n T) (g : Layout n) : List (Option T) := s.taken ++ g.list.map s.value

/-- The nodes that a thread holds, its own first. -/
def own (s : Threads n T) (g : Layout n) (u : Fin n) : List Nat :=
  match (s.pc u).root with
  | none => []
  | some i => i :: g.behind u

/-- The list, the held nodes and the free ones. -/
structure Shape (s : Threads n T) (g : Layout n) : Prop where
  head : s.queue.qhead = ⟨some g.dummy, s.taken.length⟩
  tail : ∃ pre a post, g.dummy :: g.list = pre ++ a :: post ∧
    s.queue.qtail = ⟨some a, s.taken.length + pre.length⟩
  links : Links s.queue.link g.dummy g.list none
  nodup : (g.dummy :: g.list).Nodup
  listed : ∀ a, g.place a = .listed ↔ a ∈ g.dummy :: g.list
  held : ∀ u a, g.place a = .held u ↔ a ∈ s.own g u
  heldNodup : ∀ u, (s.own g u).Nodup
  free : ∀ a, g.place a = .free ↔ (s.queue.nodes a).free = true
  single : ∀ u, (s.pc u).ready = none → g.behind u = []
  ready : ∀ u i, (s.pc u).ready = some i → Links s.queue.link i (g.behind u) none
  filled : ∀ u i t, (s.pc u).filled = some (i, t) → s.value i = some t
  count : ((s.linked.map some : List (Option T)) : Multiset (Option T)) =
    (s.taken : Multiset (Option T)) + (g.list.map s.value : Multiset (Option T)) +
      ∑ u, ((g.behind u).map s.value : Multiset (Option T))

/-- A node that thread `u` has once seen in the list: if it is not there any more, its link is set
or it has been claimed since. -/
def SeenAt (s : Threads n T) (stamp : Fin n → Nat) (u : Fin n) (a : Nat) : Place n → Prop
  | .listed => True
  | .free => s.queue.link a ≠ none
  | .held v => stamp u < stamp v ∧ ((s.pc v).ready = none → s.queue.link a ≠ none)

def Seen (s : Threads n T) (g : Layout n) (u : Fin n) (a : Nat) : Prop :=
  s.SeenAt g.stamp u a (g.place a)

end Threads

/-- A pointer that was read earlier. -/
def Pointer.Before (p now : Pointer) : Prop :=
  p.version ≤ now.version ∧ (p.version = now.version → p = now)

theorem Pointer.Before.refl (p : Pointer) : p.Before p := ⟨Nat.le_refl _, fun _ => rfl⟩

theorem Pointer.Before.trans {p now now' : Pointer} (h : p.Before now)
    (hnow : now' = now ∨ now.version < now'.version) : p.Before now' := by
  rcases hnow with rfl | hlt
  · exact h
  · obtain ⟨hle, -⟩ := h
    exact ⟨by omega, fun heq => by omega⟩

/-- It is still there if it has not changed since. -/
theorem Pointer.Before.eq_of_eq {p now now' : Pointer} (h : p.Before now)
    (hnow : now' = now ∨ now.version < now'.version) (heq : now' = p) : now = p := by
  rcases hnow with rfl | hlt
  · exact heq
  · obtain ⟨hle, -⟩ := h
    rw [heq] at hlt
    omega

/-- As long as the version has not come around, the exchange sees a change. -/
theorem Pointer.Before.eq_of_same {p now : Pointer} (h : p.Before now)
    (hlt : now.version < 2 ^ 32) (hsame : now.same p = true) : now = p := by
  obtain ⟨hle, heq⟩ := h
  have hver := (of_decide_eq_true hsame).2
  rw [Nat.mod_eq_of_lt hlt, Nat.mod_eq_of_lt (by omega)] at hver
  exact (heq hver.symm).symm

namespace Threads

variable {s s' : Threads n T} {g g' : Layout n} {u v : Fin n}

/-- `next` is what the link of `p` leads to. -/
def Leads (s : Threads n T) (p next : Pointer) : Prop :=
  ∀ b, next.index = some b → s.queue.link (p.index.getD 0) = some b

/-- The tail as an `Enqueue` has read it. -/
structure SeenTail (s : Threads n T) (g : Layout n) (u : Fin n) (tail : Pointer) : Prop where
  before : tail.Before s.queue.qtail
  index : tail.index ≠ none
  seen : s.Seen g u (tail.index.getD 0)

/-- Head and tail as a `Dequeue` has read them. -/
structure SeenEnds (s : Threads n T) (head tail : Pointer) : Prop where
  headBefore : head.Before s.queue.qhead
  tailBefore : tail.Before s.queue.qtail
  apart : s.queue.qhead = head → tail.index ≠ head.index → s.queue.qtail.index ≠ head.index

/-- What a `Dequeue` knows of the node behind the head, as long as the head is there. -/
structure SeenFirst (s : Threads n T) (head next : Pointer) : Prop where
  headBefore : head.Before s.queue.qhead
  index : next.index ≠ none
  apart : s.queue.qhead = head → s.queue.qtail.index ≠ head.index
  leads : s.queue.qhead = head → s.Leads head next

/-- What holds where thread `u` stands. -/
def LocalOk (s : Threads n T) (g : Layout n) (u : Fin n) : Pc T → Prop
  | .readNext _ _ tail => s.SeenTail g u tail
  | .testTail _ _ tail next =>
      s.SeenTail g u tail ∧ (s.queue.qtail = tail → s.Leads tail next)
  | .helpTail _ _ tail next =>
      tail.Before s.queue.qtail ∧ next.index ≠ none ∧ (s.queue.qtail = tail → s.Leads tail next)
  | .linkNode _ _ tail next => s.SeenTail g u tail ∧ next.index = none
  | .swingTail _ i tail =>
      tail.Before s.queue.qtail ∧
        (s.queue.qtail = tail → s.queue.link (tail.index.getD 0) = some i)
  | .readHeadTail head => head.Before s.queue.qhead
  | .readHeadNext head tail => s.SeenEnds head tail
  | .testHead head tail next =>
      s.SeenEnds head tail ∧ (s.queue.qhead = head → s.Leads head next) ∧
        (s.queue.qtail = tail → tail.index = head.index → s.Leads tail next)
  | .passEmpty tail next =>
      tail.Before s.queue.qtail ∧ next.index ≠ none ∧ (s.queue.qtail = tail → s.Leads tail next)
  | .readValue head next => s.SeenFirst head next
  | .swingHead head next ret =>
      s.SeenFirst head next ∧ (s.queue.qhead = head → s.value (next.index.getD 0) = ret)
  | .freeHead head _ => head.index ≠ none
  | _ => True

structure Inv (s : Threads n T) (g : Layout n) : Prop where
  shape : s.Shape g
  locals : ∀ u, s.LocalOk g u (s.pc u)

/-! ## What one thread leaves to the others -/

/-- Where thread `u` is about to link its node behind another one, that one is in the list. -/
def Fresh (s : Threads n T) (u : Fin n) : Prop :=
  ∀ t i tail next, s.pc u = .linkNode t i tail next →
    (s.queue.target tail).next.same next = true → s.queue.Listed (tail.index.getD 0)

/-- No node hangs behind that of a thread, and the values are in the order of their links. -/
structure InOrder (s : Threads n T) (g : Layout n) : Prop where
  behind : ∀ u, g.behind u = []
  content : s.content g = s.linked.map some

/-- What a step of thread `u` keeps for the others. -/
structure Keeps (s s' : Threads n T) (g g' : Layout n) (u : Fin n) : Prop where
  qhead : s'.queue.qhead = s.queue.qhead ∨ s.queue.qhead.version < s'.queue.qhead.version
  qtail : s'.queue.qtail = s.queue.qtail ∨ s.queue.qtail.version < s'.queue.qtail.version
  apart : s'.queue.qhead = s.queue.qhead → s.queue.qtail.index ≠ s.queue.qhead.index →
    s'.queue.qtail.index ≠ s'.queue.qhead.index
  link : ∀ a ∈ g.dummy :: g.list, ∀ b, s.queue.link a = some b → s'.queue.link a = some b
  value : ∀ a ∈ g.list, s'.value a = s.value a
  seen : ∀ v, v ≠ u → ∀ a, s.Seen g v a → s'.Seen g' v a
  pc : ∀ v, v ≠ u → s'.pc v = s.pc v
  content : s.content g <+: s'.content g'
  inOrder : s.Fresh u → s.InOrder g → s'.InOrder g'
  back : s'.linked.Nodup → s'.InOrder g' → s.InOrder g

theorem Shape.tail_mem (h : s.Shape g) {a : Nat} (ha : s.queue.qtail.index = some a) :
    a ∈ g.dummy :: g.list := by
  obtain ⟨pre, b, post, hlist, hq⟩ := h.tail
  rw [hq] at ha
  cases ha
  rw [hlist]
  simp

theorem Keeps.leadsTail (hk : Keeps s s' g g' u) (h : s.Shape g) {tail next : Pointer}
    (hbefore : tail.Before s.queue.qtail) (hleads : s.queue.qtail = tail → s.Leads tail next)
    (heq : s'.queue.qtail = tail) : s'.Leads tail next := by
  have hold := hbefore.eq_of_eq hk.qtail heq
  intro b hb
  have hlink := hleads hold b hb
  obtain ⟨pre, a, post, hlist, hq⟩ := h.tail
  have hindex : tail.index = some a := by rw [← hold, hq]
  refine hk.link _ ?_ b hlink
  rw [hindex, hlist]
  simp

theorem Keeps.leadsHead (hk : Keeps s s' g g' u) (h : s.Shape g) {head next : Pointer}
    (hbefore : head.Before s.queue.qhead) (hleads : s.queue.qhead = head → s.Leads head next)
    (heq : s'.queue.qhead = head) : s'.Leads head next := by
  have hold := hbefore.eq_of_eq hk.qhead heq
  intro b hb
  have hlink := hleads hold b hb
  have hindex : head.index = some g.dummy := by rw [← hold, h.head]
  refine hk.link _ ?_ b hlink
  rw [hindex]
  simp

theorem Keeps.seenTail (hk : Keeps s s' g g' u) (hv : v ≠ u) {tail : Pointer}
    (h : s.SeenTail g v tail) : s'.SeenTail g' v tail :=
  ⟨h.before.trans hk.qtail, h.index, hk.seen v hv _ h.seen⟩

theorem Keeps.seenEnds (hk : Keeps s s' g g' u) {head tail : Pointer}
    (h : s.SeenEnds head tail) : s'.SeenEnds head tail := by
  refine ⟨h.headBefore.trans hk.qhead, h.tailBefore.trans hk.qtail, fun heq hne => ?_⟩
  have hold := h.headBefore.eq_of_eq hk.qhead heq
  have hapart := h.apart hold hne
  rw [← heq]
  refine hk.apart (heq.trans hold.symm) ?_
  rw [hold]
  exact hapart

theorem Keeps.seenFirst (hk : Keeps s s' g g' u) (hs : s.Shape g) {head next : Pointer}
    (h : s.SeenFirst head next) : s'.SeenFirst head next := by
  refine ⟨h.headBefore.trans hk.qhead, h.index, fun heq => ?_, hk.leadsHead hs h.headBefore h.leads⟩
  have hold := h.headBefore.eq_of_eq hk.qhead heq
  have hapart := h.apart hold
  rw [← heq]
  refine hk.apart (heq.trans hold.symm) ?_
  rw [hold]
  exact hapart

/-- The node behind the head is in the list. -/
theorem Shape.first_mem (h : s.Shape g) {head next : Pointer} {b : Nat}
    (hq : s.queue.qhead = head) (hleads : s.Leads head next) (hb : next.index = some b) :
    ∃ rest, g.list = b :: rest := by
  have hlink := hleads b hb
  rw [← hq, h.head] at hlink
  have hfirst := h.links.first
  cases hlist : g.list with
  | nil =>
      rw [hlist] at hfirst
      cases hfirst.symm.trans hlink
  | cons c rest =>
      rw [hlist] at hfirst
      cases hfirst.symm.trans hlink
      exact ⟨rest, rfl⟩

theorem LocalOk.keep {p : Pc T} (h : s.LocalOk g v p) (hs : s.Shape g) (hk : Keeps s s' g g' u)
    (hv : v ≠ u) : s'.LocalOk g' v p := by
  cases p with
  | readNext t i tail => exact hk.seenTail hv h
  | testTail t i tail next =>
      exact ⟨hk.seenTail hv h.1, hk.leadsTail hs h.1.before h.2⟩
  | helpTail t i tail next =>
      exact ⟨h.1.trans hk.qtail, h.2.1, hk.leadsTail hs h.1 h.2.2⟩
  | linkNode t i tail next => exact ⟨hk.seenTail hv h.1, h.2⟩
  | swingTail t i tail =>
      have hleads : s.queue.qtail = tail → s.Leads tail ⟨some i, 0⟩ := by
        intro heq b hb
        cases hb
        exact h.2 heq
      exact ⟨h.1.trans hk.qtail, fun heq => hk.leadsTail hs h.1 hleads heq i rfl⟩
  | readHeadTail head =>
      have h : head.Before s.queue.qhead := h
      exact h.trans hk.qhead
  | readHeadNext head tail => exact hk.seenEnds h
  | testHead head tail next =>
      refine ⟨hk.seenEnds h.1, hk.leadsHead hs h.1.headBefore h.2.1, fun heq hidx => ?_⟩
      exact hk.leadsTail hs h.1.tailBefore (fun hold => h.2.2 hold hidx) heq
  | passEmpty tail next => exact ⟨h.1.trans hk.qtail, h.2.1, hk.leadsTail hs h.1 h.2.2⟩
  | readValue head next => exact hk.seenFirst hs h
  | swingHead head next ret =>
      refine ⟨hk.seenFirst hs h.1, fun heq => ?_⟩
      have hold := h.1.headBefore.eq_of_eq hk.qhead heq
      obtain ⟨b, hb⟩ := Option.ne_none_iff_exists'.mp h.1.index
      obtain ⟨rest, hlist⟩ := hs.first_mem hold (h.1.leads hold) hb
      have hvalue := h.2 hold
      rw [hb] at hvalue ⊢
      rw [← hvalue]
      exact hk.value b (by rw [hlist]; simp)
  | freeHead head ret => exact h
  | _ => trivial

/-- The rule for a step of thread `u`. -/
theorem Inv.of_keeps (h : s.Inv g) (hshape : s'.Shape g') (hk : Keeps s s' g g' u)
    (hlocal : s'.LocalOk g' u (s'.pc u)) : s'.Inv g' := by
  refine ⟨hshape, fun v => ?_⟩
  by_cases hv : v = u
  · rw [hv]
    exact hlocal
  · rw [hk.pc v hv]
    exact (h.locals v).keep h.shape hk hv

/-! ## Steps in the thread's own node -/

/-- The threads other than `u` stand where they stood, `u` holds the node it held, and no other
node has changed. -/
structure OwnStep (s s' : Threads n T) (u : Fin n) : Prop where
  pc : ∀ v, v ≠ u → s'.pc v = s.pc v
  root : (s'.pc u).root = (s.pc u).root
  nodes : ∀ a, (s.pc u).root ≠ some a → s'.queue.nodes a = s.queue.nodes a
  free : ∀ a, (s'.queue.nodes a).free = (s.queue.nodes a).free
  qhead : s'.queue.qhead = s.queue.qhead
  taken : s'.taken = s.taken
  linked : s'.linked = s.linked

/-- `qtail` stays, or goes on to a node further back. -/
def TailMoves (s s' : Threads n T) (g : Layout n) : Prop :=
  s'.queue.qtail = s.queue.qtail ∨ ∃ pre a b post, g.dummy :: g.list = pre ++ a :: b :: post ∧
    s.queue.qtail = ⟨some a, s.taken.length + pre.length⟩ ∧
    s'.queue.qtail = ⟨some b, s.taken.length + pre.length + 1⟩

theorem own_eq (hroot : (s'.pc v).root = (s.pc v).root) (hbehind : g'.behind v = g.behind v) :
    s'.own g' v = s.own g v := by
  rw [own, own, hroot, hbehind]

theorem mem_own_of_root {i : Nat} (hroot : (s.pc u).root = some i) : i ∈ s.own g u := by
  rw [own, hroot]
  exact List.mem_cons_self

theorem Shape.not_held (h : s.Shape g) {a : Nat} (ha : g.place a ≠ .held u) :
    (s.pc u).root ≠ some a := fun hroot => ha ((h.held u a).mpr (mem_own_of_root hroot))

/-- What hangs behind the node of a thread. -/
theorem Shape.behind_held (h : s.Shape g) {a : Nat} (ha : a ∈ g.behind u) :
    g.place a = .held u ∧ (s.pc u).root ≠ some a := by
  cases hready : (s.pc u).ready with
  | none =>
      rw [h.single u hready] at ha
      cases ha
  | some i =>
      have hroot := Pc.root_of_ready hready
      have hnd := h.heldNodup u
      have hheld := (h.held u a).mpr
      rw [own, hroot] at hnd hheld
      refine ⟨hheld (List.mem_cons_of_mem i ha), fun heq => ?_⟩
      rw [hroot] at heq
      cases heq
      exact (List.nodup_cons.mp hnd).1 ha

theorem OwnStep.nodes_of_place (ho : OwnStep s s' u) (h : s.Shape g) {a : Nat}
    (ha : g.place a ≠ .held u) : s'.queue.nodes a = s.queue.nodes a :=
  ho.nodes a (h.not_held ha)

theorem OwnStep.nodes_of_mem (ho : OwnStep s s' u) (h : s.Shape g) {a : Nat}
    (ha : a ∈ g.dummy :: g.list) : s'.queue.nodes a = s.queue.nodes a := by
  refine ho.nodes_of_place h ?_
  simp [(h.listed a).mpr ha]

theorem OwnStep.nodes_of_behind (ho : OwnStep s s' u) (h : s.Shape g) {a : Nat}
    (ha : a ∈ g.behind v) : s'.queue.nodes a = s.queue.nodes a := by
  obtain ⟨hplace, hroot⟩ := h.behind_held ha
  by_cases hv : v = u
  · rw [hv] at hroot
    exact ho.nodes a hroot
  · refine ho.nodes_of_place h ?_
    rw [hplace]
    exact fun heq => hv (Place.held.inj heq)

theorem OwnStep.own (ho : OwnStep s s' u) (v : Fin n) : s'.own g v = s.own g v := by
  refine own_eq ?_ rfl
  by_cases hv : v = u
  · rw [hv, ho.root]
  · rw [ho.pc v hv]

theorem OwnStep.content (ho : OwnStep s s' u) (h : s.Shape g) :
    s'.content g = s.content g := by
  have hmap : g.list.map s'.value = g.list.map s.value := by
    refine List.map_congr_left fun a ha => ?_
    rw [value, value, ho.nodes_of_mem h (List.mem_cons_of_mem _ ha)]
  rw [Threads.content, Threads.content, ho.taken, hmap]

theorem OwnStep.shape (ho : OwnStep s s' u) (h : s.Shape g) (ht : TailMoves s s' g)
    (hsingle : (s'.pc u).ready = none → g.behind u = [])
    (hready : ∀ i, (s'.pc u).ready = some i → Links s'.queue.link i (g.behind u) none)
    (hfilled : ∀ i t, (s'.pc u).filled = some (i, t) → s'.value i = some t) : s'.Shape g where
  head := by rw [ho.qhead, ho.taken, h.head]
  tail := by
    rw [ho.taken]
    rcases ht with heq | ⟨pre, a, b, post, hlist, -, hq⟩
    · rw [heq]
      exact h.tail
    · refine ⟨pre ++ [a], b, post, by rw [hlist]; simp, ?_⟩
      rw [hq, List.length_append, List.length_singleton, Nat.add_assoc]
  links := h.links.congr fun a ha => by rw [HQueue.link, HQueue.link, ho.nodes_of_mem h ha]
  nodup := h.nodup
  listed := h.listed
  held := fun v a => by rw [h.held, ho.own]
  heldNodup := fun v => by
    rw [ho.own]
    exact h.heldNodup v
  free := fun a => by rw [h.free, ho.free]
  single := fun v hv => by
    by_cases heq : v = u
    · rw [heq] at hv ⊢
      exact hsingle hv
    · rw [ho.pc v heq] at hv
      exact h.single v hv
  ready := fun v i hv => by
    by_cases heq : v = u
    · rw [heq] at hv ⊢
      exact hready i hv
    · rw [ho.pc v heq] at hv
      refine (h.ready v i hv).congr fun a ha => ?_
      have hplace : g.place a = .held v := by
        rw [h.held, Threads.own, Pc.root_of_ready hv]
        exact ha
      rw [HQueue.link, HQueue.link, ho.nodes_of_place h]
      rw [hplace]
      exact fun hvu => heq (Place.held.inj hvu)
  filled := fun v i t hv => by
    by_cases heq : v = u
    · rw [heq] at hv
      exact hfilled i t hv
    · rw [ho.pc v heq] at hv
      have hplace : g.place i = .held v :=
        (h.held v i).mpr (mem_own_of_root (Pc.root_of_filled hv))
      rw [value, ho.nodes_of_place h]
      · exact h.filled v i t hv
      · rw [hplace]
        exact fun hvu => heq (Place.held.inj hvu)
  count := by
    have hlist : g.list.map s'.value = g.list.map s.value := by
      refine List.map_congr_left fun a ha => ?_
      rw [value, value, ho.nodes_of_mem h (List.mem_cons_of_mem _ ha)]
    have hbehind : ∀ v, (g.behind v).map s'.value = (g.behind v).map s.value := by
      intro v
      refine List.map_congr_left fun a ha => ?_
      rw [value, value, ho.nodes_of_behind h ha]
    rw [ho.linked, ho.taken, hlist, h.count]
    simp only [hbehind]

theorem OwnStep.seen (ho : OwnStep s s' u) (h : s.Shape g)
    (hready : (s'.pc u).ready = none →
      (s.pc u).ready = none ∧ ∀ a, s'.queue.link a = s.queue.link a)
    {a : Nat} (ha : s.Seen g v a) : s'.Seen g v a := by
  rw [Seen] at ha ⊢
  cases hplace : g.place a with
  | listed => trivial
  | free =>
      rw [hplace] at ha
      have hnode : s'.queue.nodes a = s.queue.nodes a := by
        refine ho.nodes_of_place h ?_
        simp [hplace]
      show s'.queue.link a ≠ none
      rw [HQueue.link, hnode]
      exact ha
  | held w =>
      rw [hplace] at ha
      refine ⟨ha.1, fun hnone => ?_⟩
      by_cases hw : w = u
      · rw [hw] at hnone
        obtain ⟨hold, hlink⟩ := hready hnone
        rw [hlink]
        exact ha.2 (by rw [hw]; exact hold)
      · rw [ho.pc w hw] at hnone
        have hnode : s'.queue.nodes a = s.queue.nodes a := by
          refine ho.nodes_of_place h ?_
          rw [hplace]
          exact fun heq => hw (Place.held.inj heq)
        rw [HQueue.link, hnode]
        exact ha.2 hnone

theorem OwnStep.keeps (ho : OwnStep s s' u) (h : s.Shape g) (ht : TailMoves s s' g)
    (hready : (s'.pc u).ready = none →
      (s.pc u).ready = none ∧ ∀ a, s'.queue.link a = s.queue.link a) :
    Keeps s s' g g u where
  qhead := Or.inl ho.qhead
  qtail := by
    rcases ht with heq | ⟨pre, a, b, post, -, hq, hq'⟩
    · exact Or.inl heq
    · refine Or.inr ?_
      rw [hq, hq']
      exact Nat.lt_succ_self _
  apart := fun _ hne => by
    rcases ht with heq | ⟨pre, a, b, post, hlist, -, hq⟩
    · rw [heq, ho.qhead]
      exact hne
    · -- only the first node is the dummy
      rw [ho.qhead, h.head, hq]
      intro heq
      cases heq
      have hmem : g.dummy ∈ g.list := by
        cases pre with
        | nil =>
            rw [(List.cons.inj hlist).2]
            exact List.mem_cons_self
        | cons c pre =>
            rw [(List.cons.inj hlist).2]
            simp
      exact (List.nodup_cons.mp h.nodup).1 hmem
  link := fun a ha b hb => by
    rw [HQueue.link, ho.nodes_of_mem h ha]
    exact hb
  value := fun a ha => by
    rw [Threads.value, Threads.value, ho.nodes_of_mem h (List.mem_cons_of_mem _ ha)]
  seen := fun v _ a ha => ho.seen h hready ha
  pc := ho.pc
  content := by rw [ho.content h]
  inOrder := fun _ hord => ⟨hord.behind, by rw [ho.content h, ho.linked, hord.content]⟩
  back := fun _ hord => ⟨hord.behind, by rw [← ho.content h, ← ho.linked, hord.content]⟩

end Threads

end Ccbase.Nice
