import Ccbase.Lib.Heap
import Ccbase.Lib.Links
import Ccbase.Lib.Run

/-!
# `ConcurrentQueue`

A linked list with a dummy node in front. Enqueuers work at the tail under
`tail_mutex`, dequeuers at the head under `head_mutex`, and the two meet where the
dummy is the last node.

One event is one read or write of a shared field, or one call of pthread; those of
different threads interleave in any order. A new node is filled in the event that
makes it, as no other thread knows it then. A read or write of a node that was
freed is a fault. Where a thread stands is named by what it does next; a call
returns with the last of its events.
-/

namespace Ccbase.Libc

open Ccbase.Lib

structure Node (D : Type) where
  data : D
  next : Option Nat

/-- What a thread does next, with its local variables. -/
inductive Pc (D : Type) where
  | idle
  -- `concurrent_queue_enqueue`
  | lockTail (node : Nat) (data : D)
  | readTail (node : Nat) (data : D)
  | writeNext (node : Nat) (data : D) (tail : Nat)
  | writeTail (node : Nat) (data : D)
  | unlockTail (data : D)
  | signal (data : D)
  -- `concurrent_queue_dequeue`, and with `blocking` unset `concurrent_queue_try_dequeue`
  | lockHead (blocking : Bool)
  | readHead (blocking : Bool)
  | testNext (blocking : Bool) (head : Nat)
  | wait
  | waiting
  | woken
  | unlockEmpty
  | readDummy (blocking : Bool)
  | readNext (blocking : Bool) (dummy : Nat)
  | readData (blocking : Bool) (dummy resultNode : Nat)
  | writeHead (blocking : Bool) (dummy resultNode : Nat) (result : D)
  | unlockHead (blocking : Bool) (dummy : Nat) (result : D)
  | freeDummy (blocking : Bool) (dummy : Nat) (result : D)
  deriving DecidableEq

def Pc.isWaiting {D : Type} : Pc D → Bool
  | .waiting => true
  | _ => false

/-- What a call returns: `concurrent_queue_dequeue` a value, and
`concurrent_queue_try_dequeue` either `1` and a value in `*result`, or `0`. -/
inductive Answer (D : Type) where
  | value (result : D)
  | found (result : D)
  | empty
  deriving DecidableEq

/-- What a call returns that has taken a value. -/
def Answer.of {D : Type} (blocking : Bool) (result : D) : Answer D :=
  if blocking then .value result else .found result

/-- `n` threads share the queue. `enqueued` and `dequeued` are the values of the
sections under the two mutexes, in the order of the sections; `finished` are the
values of the calls of `concurrent_queue_enqueue` that have returned, and `answers`
what the other calls have returned. -/
structure ConcurrentQueue (n : Nat) (D : Type) where
  heap : Heap (Node D)
  head : Nat
  tail : Nat
  headMutex : Option (Fin n)
  tailMutex : Option (Fin n)
  pc : Fin n → Pc D
  enqueued : List D
  dequeued : List D
  finished : List D
  answers : List (Answer D)
  fault : Bool

/-- A thread calls a function, does what comes next in it, or is woken for no reason.
A signal wakes a thread that waits, if there is one. -/
inductive Event (n : Nat) (D : Type) where
  | enqueue (t : Fin n) (data : D)
  | dequeue (t : Fin n)
  | tryDequeue (t : Fin n)
  | run (t : Fin n)
  | signal (t : Fin n) (wakes : Option (Fin n))
  | spurious (t : Fin n)

namespace ConcurrentQueue

variable {n : Nat} {D : Type}

/-- `concurrent_queue_init`. -/
def init (n : Nat) (null : D) : ConcurrentQueue n D where
  heap := Heap.empty.new ⟨null, none⟩
  head := 0
  tail := 0
  headMutex := none
  tailMutex := none
  pc := fun _ => .idle
  enqueued := []
  dequeued := []
  finished := []
  answers := []
  fault := false

def goto (q : ConcurrentQueue n D) (t : Fin n) (p : Pc D) : ConcurrentQueue n D :=
  { q with pc := Function.update q.pc t p }

@[simp] theorem goto_pc_self (q : ConcurrentQueue n D) (t : Fin n) (p : Pc D) :
    (q.goto t p).pc t = p :=
  Function.update_self ..

theorem goto_pc_of_ne (q : ConcurrentQueue n D) {t u : Fin n} (hu : u ≠ t) (p : Pc D) :
    (q.goto t p).pc u = q.pc u :=
  Function.update_of_ne hu ..

/-- `concurrent_queue_enqueue` returns. -/
def finish (q : ConcurrentQueue n D) (t : Fin n) (data : D) : ConcurrentQueue n D :=
  { q with finished := q.finished ++ [data] }.goto t .idle

@[simp] theorem finish_pc (q : ConcurrentQueue n D) (t : Fin n) (data : D) :
    (q.finish t data).pc = (q.goto t .idle).pc := rfl

def crash (q : ConcurrentQueue n D) : ConcurrentQueue n D := { q with fault := true }

/-- What thread `t` does next. -/
def run (q : ConcurrentQueue n D) (t : Fin n) : Option (ConcurrentQueue n D) :=
  match q.pc t with
  | .lockTail node data =>
      if q.tailMutex = none then
        some ({ q with tailMutex := some t }.goto t (.readTail node data))
      else none
  | .readTail node data => some (q.goto t (.writeNext node data q.tail))
  | .writeNext node data tail =>
      match q.heap.get tail with
      | none => some q.crash
      | some _ =>
          some ({ q with
            heap := q.heap.modify tail fun x => { x with next := some node }
            enqueued := q.enqueued ++ [data] }.goto t (.writeTail node data))
  | .writeTail node data => some ({ q with tail := node }.goto t (.unlockTail data))
  | .unlockTail data => some ({ q with tailMutex := none }.goto t (.signal data))
  | .lockHead blocking =>
      if q.headMutex = none then
        some ({ q with headMutex := some t }.goto t (.readHead blocking))
      else none
  | .readHead blocking => some (q.goto t (.testNext blocking q.head))
  | .testNext blocking head =>
      match q.heap.get head with
      | none => some q.crash
      | some x =>
          match x.next with
          | none => some (q.goto t (if blocking then .wait else .unlockEmpty))
          | some _ => some (q.goto t (.readDummy blocking))
  | .wait => some ({ q with headMutex := none }.goto t .waiting)
  | .woken =>
      if q.headMutex = none then
        some ({ q with headMutex := some t }.goto t (.readHead true))
      else none
  | .unlockEmpty =>
      some ({ q with headMutex := none, answers := q.answers ++ [Answer.empty] }.goto t .idle)
  | .readDummy blocking => some (q.goto t (.readNext blocking q.head))
  | .readNext blocking dummy =>
      match (q.heap.get dummy).bind Node.next with
      | none => some q.crash
      | some resultNode => some (q.goto t (.readData blocking dummy resultNode))
  | .readData blocking dummy resultNode =>
      match q.heap.get resultNode with
      | none => some q.crash
      | some x => some (q.goto t (.writeHead blocking dummy resultNode x.data))
  | .writeHead blocking dummy resultNode result =>
      some ({ q with head := resultNode, dequeued := q.dequeued ++ [result] }.goto t
        (.unlockHead blocking dummy result))
  | .unlockHead blocking dummy result =>
      some ({ q with headMutex := none }.goto t (.freeDummy blocking dummy result))
  | .freeDummy blocking dummy result =>
      match q.heap.get dummy with
      | none => some q.crash
      | some _ =>
          some ({ q with
            heap := q.heap.delete dummy
            answers := q.answers ++ [Answer.of blocking result] }.goto t
              .idle)
  | .idle | .signal _ | .waiting => none

def step (q : ConcurrentQueue n D) : Event n D → Option (ConcurrentQueue n D)
  | .enqueue t data =>
      match q.pc t with
      | .idle =>
          some ({ q with heap := q.heap.new ⟨data, none⟩ }.goto t (.lockTail q.heap.next data))
      | _ => none
  | .dequeue t =>
      match q.pc t with
      | .idle => some (q.goto t (.lockHead true))
      | _ => none
  | .tryDequeue t =>
      match q.pc t with
      | .idle => some (q.goto t (.lockHead false))
      | _ => none
  | .run t => q.run t
  | .signal t wakes =>
      match q.pc t with
      | .signal data =>
          match wakes with
          | some u =>
              if (q.pc u).isWaiting = true then some ((q.goto u .woken).finish t data) else none
          | none =>
              -- nobody waits, and the signal is lost
              if ∀ u, (q.pc u).isWaiting = false then some (q.finish t data) else none
      | _ => none
  | .spurious t => if (q.pc t).isWaiting = true then some (q.goto t .woken) else none

end ConcurrentQueue

end Ccbase.Libc
