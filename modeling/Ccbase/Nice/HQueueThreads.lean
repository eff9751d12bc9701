import Ccbase.Nice.HQueue

/-!
# `HQueue` shared by threads

Any number of threads call `Enqueue` and `Dequeue` at the same time. One event is one read or
write of a shared field, or one exchange; those of different threads interleave in any order. A
value is not null, and where a thread stands is named by what it does next.

`called` has the values in the order of the calls, `linked` those whose node an exchange has put
behind another one, and `taken` those that an exchange of the head has given to a `Dequeue`.
`answered` has each `Enqueue` that has returned with what it returned, and `returned` what each
`Dequeue` has. The code does not keep these five.
-/

namespace Ccbase.Nice

open Ccbase.Lib

/-- What a thread does next, with its local variables. -/
inductive Pc (T : Type) where
  | idle
  -- `Enqueue`
  | readHint (t : T)
  | search (t : T) (again : Bool) (nodeIdx : Nat)
  | resetHint (t : T)
  | writeHint (t : T) (nodeIdx : Nat)
  | writeValue (t : T) (nodeIdx : Nat)
  | writeNext (t : T) (nodeIdx : Nat)
  | readTail (t : T) (nodeIdx : Nat)
  | readNext (t : T) (nodeIdx : Nat) (tail : Pointer)
  | testTail (t : T) (nodeIdx : Nat) (tail next : Pointer)
  | helpTail (t : T) (nodeIdx : Nat) (tail next : Pointer)
  | linkNode (t : T) (nodeIdx : Nat) (tail next : Pointer)
  | swingTail (t : T) (nodeIdx : Nat) (tail : Pointer)
  | enqueued (t : T) (ok : Bool)
  -- `Dequeue`
  | readHead
  | readHeadTail (head : Pointer)
  | readHeadNext (head tail : Pointer)
  | testHead (head tail next : Pointer)
  | passEmpty (tail next : Pointer)
  | readValue (head next : Pointer)
  | swingHead (head next : Pointer) (ret : Option T)
  | freeHead (head : Pointer) (ret : Option T)
  | dequeued (ret : Option T)
  deriving DecidableEq

structure Threads (n : Nat) (T : Type) where
  queue : HQueue T
  pc : Fin n → Pc T
  called : List T
  linked : List T
  taken : List (Option T)
  answered : List (T × Bool)
  returned : List (Option T)

/-- A thread calls a function, or does what comes next in it. -/
inductive Event (n : Nat) (T : Type) where
  | enqueue (u : Fin n) (t : T)
  | dequeue (u : Fin n)
  | run (u : Fin n)

/-- Who takes the step. -/
def Event.thread {n : Nat} {T : Type} : Event n T → Fin n
  | .enqueue u _ | .dequeue u | .run u => u

/-- The node of a pointer. The code looks at it where the index is not `-1`. -/
def HQueue.target {T : Type} (q : HQueue T) (p : Pointer) : HQNode T := q.nodes (p.index.getD 0)

namespace Threads

variable {n : Nat} {T : Type}

/-- All threads are idle on a queue as `Init` leaves it. -/
def start (n : Nat) (q : HQueue T) : Threads n T where
  queue := q
  pc := fun _ => .idle
  called := []
  linked := []
  taken := []
  answered := []
  returned := []

def goto (s : Threads n T) (u : Fin n) (p : Pc T) : Threads n T :=
  { s with pc := Function.update s.pc u p }

@[simp] theorem goto_pc_self (s : Threads n T) (u : Fin n) (p : Pc T) : (s.goto u p).pc u = p :=
  Function.update_self ..

theorem goto_pc_of_ne (s : Threads n T) {u v : Fin n} (hv : v ≠ u) (p : Pc T) :
    (s.goto u p).pc v = s.pc v :=
  Function.update_of_ne hv ..

@[simp] theorem goto_queue (s : Threads n T) (u : Fin n) (p : Pc T) :
    (s.goto u p).queue = s.queue := rfl

@[simp] theorem goto_linked (s : Threads n T) (u : Fin n) (p : Pc T) :
    (s.goto u p).linked = s.linked := rfl

@[simp] theorem goto_taken (s : Threads n T) (u : Fin n) (p : Pc T) :
    (s.goto u p).taken = s.taken := rfl

def setQueue (s : Threads n T) (q : HQueue T) : Threads n T := { s with queue := q }

@[simp] theorem setQueue_queue (s : Threads n T) (q : HQueue T) : (s.setQueue q).queue = q := rfl

@[simp] theorem setQueue_pc (s : Threads n T) (q : HQueue T) : (s.setQueue q).pc = s.pc := rfl

@[simp] theorem setQueue_linked (s : Threads n T) (q : HQueue T) :
    (s.setQueue q).linked = s.linked := rfl

@[simp] theorem setQueue_taken (s : Threads n T) (q : HQueue T) :
    (s.setQueue q).taken = s.taken := rfl

/-- `compare_exchange_strong` on `qtail`. -/
def moveTail (s : Threads n T) (tail : Pointer) (index : Option Nat) : Threads n T :=
  s.setQueue { s.queue with qtail := s.queue.qtail.exchange tail ⟨index, tail.version + 1⟩ }

/-- What thread `u` does next. -/
def run (s : Threads n T) (u : Fin n) : Option (Threads n T) :=
  let q := s.queue
  match s.pc u with
  | .readHint t => some (s.goto u (.search t false q.freeIndex))
  | .search t again nodeIdx =>
      if nodeIdx < q.queueSize then
        if (q.nodes nodeIdx).free = true then
          some ((s.setQueue (q.setNode nodeIdx { q.nodes nodeIdx with free := false })).goto u
            (.writeHint t nodeIdx))
        else some (s.goto u (.search t again (nodeIdx + 1)))
      else some (s.goto u (if again = true then .enqueued t false else .resetHint t))
  | .resetHint t => some ((s.setQueue { q with freeIndex := 1 }).goto u (.search t true 1))
  | .writeHint t nodeIdx =>
      some ((s.setQueue { q with freeIndex := nodeIdx + 1 }).goto u (.writeValue t nodeIdx))
  | .writeValue t nodeIdx =>
      some ((s.setQueue (q.setNode nodeIdx { q.nodes nodeIdx with value := some t })).goto u
        (.writeNext t nodeIdx))
  | .writeNext t nodeIdx =>
      some ((s.setQueue (q.setNode nodeIdx { q.nodes nodeIdx with next := ⟨none, 0⟩ })).goto u
        (.readTail t nodeIdx))
  | .readTail t nodeIdx =>
      some (s.goto u (if q.qtail.index = none then .readTail t nodeIdx
        else .readNext t nodeIdx q.qtail))
  | .readNext t nodeIdx tail => some (s.goto u (.testTail t nodeIdx tail (q.target tail).next))
  | .testTail t nodeIdx tail next =>
      some (s.goto u (if tail.same q.qtail = false then .readTail t nodeIdx
        else if next.index ≠ none then .helpTail t nodeIdx tail next
        else .linkNode t nodeIdx tail next))
  | .helpTail t nodeIdx tail next =>
      some ((s.moveTail tail next.index).goto u (.readTail t nodeIdx))
  | .linkNode t nodeIdx tail next =>
      if (q.target tail).next.same next then
        some (({ s with linked := s.linked ++ [t] }.setQueue
          (q.setNode (tail.index.getD 0)
            { q.target tail with next := ⟨some nodeIdx, next.version + 1⟩ })).goto u
          (.swingTail t nodeIdx tail))
      else some (s.goto u (.readTail t nodeIdx))
  | .swingTail t nodeIdx tail =>
      some ((s.moveTail tail (some nodeIdx)).goto u (.enqueued t true))
  | .readHead => some (s.goto u (.readHeadTail q.qhead))
  | .readHeadTail head =>
      some (s.goto u (if head.index = none then .readHead else .readHeadNext head q.qtail))
  | .readHeadNext head tail => some (s.goto u (.testHead head tail (q.target head).next))
  | .testHead head tail next =>
      some (s.goto u (if head.same q.qhead = false then .readHead
        else if head.index = tail.index then
          if next.index = none then .dequeued none else .passEmpty tail next
        else if next.index = none then .readHead
        else .readValue head next))
  | .passEmpty tail next => some ((s.moveTail tail next.index).goto u .readHead)
  | .readValue head next => some (s.goto u (.swingHead head next (q.target next).value))
  | .swingHead head next ret =>
      if q.qhead.same head then
        some (({ s with taken := s.taken ++ [ret] }.setQueue
          { q with qhead := ⟨next.index, head.version + 1⟩ }).goto u (.freeHead head ret))
      else some (s.goto u .readHead)
  | .freeHead head ret =>
      some ((s.setQueue (q.setNode (head.index.getD 0) { q.target head with free := true })).goto u
        (.dequeued ret))
  | .enqueued t ok => some ({ s with answered := s.answered ++ [(t, ok)] }.goto u .idle)
  | .dequeued ret => some ({ s with returned := s.returned ++ [ret] }.goto u .idle)
  | .idle => none

def step (s : Threads n T) : Event n T → Option (Threads n T)
  | .enqueue u t =>
      match s.pc u with
      | .idle => some ({ s with called := s.called ++ [t] }.goto u (.readHint t))
      | _ => none
  | .dequeue u =>
      match s.pc u with
      | .idle => some (s.goto u .readHead)
      | _ => none
  | .run u => s.run u

end Threads

end Ccbase.Nice
