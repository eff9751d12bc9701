import Ccbase.Lib.Heap
import Ccbase.Lib.Run

/-!
# `ThreadPool`

A caller hands its tasks to worker threads through one pointer per worker. It polls the
pointers without a lock and sets a pointer that is null under the mutex of the worker; the
worker runs the task and clears the pointer. A worker that has polled its own pointer in vain
a thousand times waits on a condition variable.

One event is one read or write of a shared variable, or one call of a mutex, a condition
variable or a thread; those of different threads interleave in any order. `pool_mtx_` is held
from the beginning to the end of a call that has to do with the workers, so the calls follow
one another. Tasks return normally. Setting the affinity of the threads has no effect on the
rest and is left out.
-/

namespace Ccbase.Testing

open Ccbase.Lib

inductive Status where
  | fail
  | success
  deriving DecidableEq, Repr

/-- A task by its place: the number of the call of `SyncRun` and the index in its list. -/
abbrev TaskPtr := Nat × Nat

def kYieldThreshold : Nat := 1000

/-- What a worker does next in `SyncRunLoop`. -/
inductive WorkerPc where
  | testExit
  | testTask
  | lockMutex
  -- the predicate of `wait`
  | testWakeTask
  | testWakeExit
  | waiting
  | woken
  | unlockMutex
  | testExitAgain
  | callTask
  | running (task : TaskPtr)
  | clearTask
  | returned
  deriving DecidableEq, Repr

/-- Who may hold the mutex of a context. -/
inductive Owner where
  | caller
  | worker
  deriving DecidableEq, Repr

/-- A `ThreadContext` and the thread that runs `SyncRunLoop` on it: they are made together, and
no other thread ever runs on this context. -/
structure Worker where
  task : Option TaskPtr := none
  mutex : Option Owner := none
  pc : WorkerPc := .testExit
  yieldCount : Nat := 0

/-- What the caller does next, with its local variables. -/
inductive CallerPc where
  | idle
  -- `SyncRun`
  | callSingle
  | resetExit
  | growThreads
  | spawnThread (i newThreadNum : Nat)
  | testContexts
  | pollTask (i taskIndex : Nat) (running : Bool)
  | lockTask (i taskIndex : Nat)
  | assignTask (i taskIndex : Nat)
  | notifyTask (i taskIndex : Nat)
  | unlockTask (i taskIndex : Nat)
  -- `ClearThreadPool`
  | testExit
  | setExit
  | notifyAll (i : Nat)
  | joinThread (i : Nat)
  deriving DecidableEq, Repr

/-- `calls` are the lists that `SyncRun` has been called with, `returned` the calls that have
come back with their results. `started` and `finished` record the tasks in the order in which
this happened to them. -/
structure ThreadPool where
  maxThreadNum : Nat
  exitRun : Bool
  workers : Heap Worker
  threads : List Nat
  contexts : List (Option Nat)
  caller : CallerPc
  calls : List (List Status)
  returned : List (Nat × Bool)
  started : List TaskPtr
  finished : List TaskPtr
  fault : Bool

/-- The caller makes a call or does what comes next in it, a worker does what comes next, or is
woken for no reason. -/
inductive Event where
  | syncRun (tasks : List Status)
  | clearThreadPool
  | caller
  | worker (w : Nat)
  | spurious (w : Nat)

namespace ThreadPool

def init (maxThreadNum : Nat) : ThreadPool where
  maxThreadNum := maxThreadNum
  exitRun := false
  workers := .empty
  threads := []
  contexts := []
  caller := .idle
  calls := []
  returned := []
  started := []
  finished := []
  fault := false

/-- The number of the last call. -/
def current (s : ThreadPool) : Nat := s.calls.length - 1

/-- The tasks of the last call. -/
def tasks (s : ThreadPool) : List Status := s.calls.getLast?.getD []

def goto (s : ThreadPool) (pc : CallerPc) : ThreadPool := { s with caller := pc }

def setWorker (s : ThreadPool) (w : Nat) (f : Worker → Worker) : ThreadPool :=
  { s with workers := s.workers.modify w f }

/-- `SyncRun` comes back. -/
def ret (s : ThreadPool) (ok : Bool) : ThreadPool :=
  { s with caller := .idle, returned := s.returned ++ [(s.current, ok)] }

def crash (s : ThreadPool) : ThreadPool := { s with fault := true }

/-! ## The workers -/

def runWorker (s : ThreadPool) (w : Nat) : Option ThreadPool := do
  let x ← s.workers.get w
  match x.pc with
  | .testExit =>
      some (s.setWorker w fun x => { x with pc := if s.exitRun then .returned else .testTask })
  | .testTask =>
      if x.task = none then
        if kYieldThreshold < x.yieldCount + 1 then
          some (s.setWorker w fun x => { x with pc := .lockMutex, yieldCount := 0 })
        else
          some (s.setWorker w fun x => { x with pc := .testExit, yieldCount := x.yieldCount + 1 })
      else some (s.setWorker w fun x => { x with pc := .testExitAgain })
  | .lockMutex | .woken =>
      if x.mutex = none then
        some (s.setWorker w fun x => { x with pc := .testWakeTask, mutex := some .worker })
      else none
  | .testWakeTask =>
      some (s.setWorker w fun x =>
        { x with pc := if x.task = none then .testWakeExit else .unlockMutex })
  | .testWakeExit =>
      if s.exitRun then some (s.setWorker w fun x => { x with pc := .unlockMutex })
      else some (s.setWorker w fun x => { x with pc := .waiting, mutex := none })
  | .unlockMutex =>
      some (s.setWorker w fun x => { x with pc := .testExitAgain, mutex := none })
  | .testExitAgain =>
      some (s.setWorker w fun x => { x with pc := if s.exitRun then .returned else .callTask })
  | .callTask =>
      match x.task with
      | none => some s.crash
      | some task =>
          some { s.setWorker w fun x => { x with pc := .running task } with
            started := s.started ++ [task] }
  | .running task =>
      some { s.setWorker w fun x => { x with pc := .clearTask } with
        finished := s.finished ++ [task] }
  | .clearTask =>
      some (s.setWorker w fun x => { x with pc := .testExit, task := none, yieldCount := 0 })
  | .waiting | .returned => none

/-- A waiting worker has to get the mutex again. -/
def wake (x : Worker) : Worker :=
  if x.pc = .waiting then { x with pc := .woken } else x

/-! ## The caller -/

/-- `contexts_.resize`: new places hold null pointers. -/
def resize (contexts : List (Option Nat)) (n : Nat) : List (Option Nat) :=
  contexts.take n ++ List.replicate (n - contexts.length) none

def usedThreadNum (s : ThreadPool) : Nat :=
  if s.tasks.length < s.contexts.length then s.tasks.length else s.contexts.length

/-- The context at a place, if the pointer there is not null. -/
def context (s : ThreadPool) (i : Nat) : Option (Nat × Worker) := do
  let w ← s.contexts[i]?.join
  let x ← s.workers.get w
  some (w, x)

/-- A step at the context `i`, where a null pointer is a fault. -/
def onContext (s : ThreadPool) (i : Nat) (f : Nat → Worker → Option ThreadPool) :
    Option ThreadPool :=
  match s.context i with
  | none => some s.crash
  | some (w, x) => f w x

def runCaller (s : ThreadPool) : Option ThreadPool :=
  match s.caller with
  | .idle => none
  | .callSingle =>
      -- the task runs in the thread of the caller
      some ({ s with
        started := s.started ++ [(s.current, 0)]
        finished := s.finished ++ [(s.current, 0)] }.ret (s.tasks.head? = some Status.success))
  | .resetExit => some ({ s with exitRun := false }.goto .growThreads)
  | .growThreads =>
      let threadNum := s.threads.length
      let taskNum := s.tasks.length
      if threadNum < s.maxThreadNum ∧ threadNum < taskNum then
        let newThreadNum := if taskNum < s.maxThreadNum then taskNum else s.maxThreadNum
        some ({ s with contexts := resize s.contexts newThreadNum }.goto
          (.spawnThread threadNum newThreadNum))
      else some (s.goto .testContexts)
  | .spawnThread i newThreadNum =>
      if i < newThreadNum then
        let w := s.workers.next
        some ({ s with
          workers := s.workers.new {}
          contexts := s.contexts.set i (some w)
          threads := s.threads ++ [w] }.goto (.spawnThread (i + 1) newThreadNum))
      else some (s.goto .testContexts)
  | .testContexts =>
      if s.contexts.isEmpty then some (s.ret true) else some (s.goto (.pollTask 0 0 false))
  | .pollTask i taskIndex running =>
      if i < s.usedThreadNum then
        s.onContext i fun _ x =>
          if x.task ≠ none then some (s.goto (.pollTask (i + 1) taskIndex true))
          else if taskIndex < s.tasks.length then some (s.goto (.lockTask i taskIndex))
          else some (s.goto (.pollTask (i + 1) taskIndex running))
      else if running then some (s.goto (.pollTask 0 taskIndex false))
      else some (s.ret true)
  | .lockTask i taskIndex =>
      s.onContext i fun w x =>
        if x.mutex = none then
          some ((s.setWorker w fun x => { x with mutex := some .caller }).goto
            (.assignTask i taskIndex))
        else none
  | .assignTask i taskIndex =>
      s.onContext i fun w _ =>
        some ((s.setWorker w fun x => { x with task := some (s.current, taskIndex) }).goto
          (.notifyTask i taskIndex))
  | .notifyTask i taskIndex =>
      s.onContext i fun w _ => some ((s.setWorker w wake).goto (.unlockTask i taskIndex))
  | .unlockTask i taskIndex =>
      s.onContext i fun w _ =>
        some ((s.setWorker w fun x => { x with mutex := none }).goto
          (.pollTask (i + 1) (taskIndex + 1) true))
  | .testExit => some (s.goto (if s.exitRun then .idle else .setExit))
  | .setExit => some ({ s with exitRun := true }.goto (.notifyAll 0))
  | .notifyAll i =>
      if i < s.contexts.length then
        s.onContext i fun w _ => some ((s.setWorker w wake).goto (.notifyAll (i + 1)))
      else some (s.goto (.joinThread 0))
  | .joinThread i =>
      match s.threads[i]? with
      | none => some ({ s with threads := [] }.goto .idle)
      | some w =>
          if (s.workers.get w).map Worker.pc = some .returned then
            some (s.goto (.joinThread (i + 1)))
          else none

/-- The beginning of `SyncRun`. -/
def callSyncRun (s : ThreadPool) (tasks : List Status) : ThreadPool :=
  let s := { s with calls := s.calls ++ [tasks] }
  match tasks with
  | [] => s.ret true
  | [_] => s.goto .callSingle
  | _ => s.goto .resetExit

def step (s : ThreadPool) : Event → Option ThreadPool
  | .syncRun tasks => if s.caller = .idle then some (s.callSyncRun tasks) else none
  | .clearThreadPool => if s.caller = .idle then some (s.goto .testExit) else none
  | .caller => s.runCaller
  | .worker w => s.runWorker w
  | .spurious w => some (s.setWorker w wake)

def Step (s : ThreadPool) (e : Event) (s' : ThreadPool) : Prop := s.step e = some s'

end ThreadPool

end Ccbase.Testing
