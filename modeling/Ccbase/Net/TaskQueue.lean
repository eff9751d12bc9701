import Mathlib.Logic.Function.Basic
import Ccbase.Lib.Run

/-!
# The task queue of `EventLoop`

Any number of threads call `AddTask` while the thread of the loop runs
`QueueReadyCallback` whenever epoll reports the eventfd. One step is a section
under `task_queue_mutex_`, a write or a read of the eventfd, or the call of one
task; the steps of the threads interleave in any order. A task that calls
`AddTask` itself is one more caller.

The caller that finds its task alone in the queue writes the eventfd, after it
has released the lock. What keeps tasks from being stranded is that a queue that
is not empty always has a wake-up ahead: a counter above zero, a caller that is
about to write, or a loop that has read the counter and not yet taken the queue.
-/

namespace Ccbase.Net

open Ccbase.Lib

/-- Where the thread of the loop stands. -/
inductive LoopThread (τ : Type) where
  | idle
  /-- `QueueReadyCallback` has read the eventfd. -/
  | woken
  /-- It works on the queue it has taken. -/
  | invoking (q : List τ)
  deriving DecidableEq, Repr

/-- `ι` are the callers. `addTask i` is the queue size that a call of `AddTask`
by `i` has seen, from the release of the lock on. -/
structure TaskLoop (ι τ : Type) where
  taskQueue : List τ := []
  eventFd : Nat := 0
  addTask : ι → Option Nat := fun _ => none
  loop : LoopThread τ := .idle

inductive TaskAct (ι τ : Type) where
  | put (i : ι) (task : τ)
  | wakeup (i : ι)
  | read
  | swap
  | invoke (task : τ)
  | finish

namespace TaskLoop

variable {ι τ : Type}

def step [DecidableEq ι] [DecidableEq τ] (s : TaskLoop ι τ) : TaskAct ι τ → Option (TaskLoop ι τ)
  | .put i task =>
      -- the section under the lock
      if s.addTask i = none then
        let taskQueue := s.taskQueue ++ [task]
        some { s with
          taskQueue
          addTask := Function.update s.addTask i (some taskQueue.length) }
      else none
  | .wakeup i =>
      match s.addTask i with
      | none => none
      | some result =>
          some { s with
            eventFd := if result = 1 then s.eventFd + 1 else s.eventFd
            addTask := Function.update s.addTask i none }
  | .read =>
      -- a read of a counter at zero fails, and the callback returns
      if s.loop = .idle then
        some (if 0 < s.eventFd then { s with eventFd := 0, loop := .woken } else s)
      else none
  | .swap =>
      if s.loop = .woken then some { s with taskQueue := [], loop := .invoking s.taskQueue }
      else none
  | .invoke task =>
      match s.loop with
      | .invoking (t :: q) => if t = task then some { s with loop := .invoking q } else none
      | _ => none
  | .finish => if s.loop = .invoking [] then some { s with loop := .idle } else none

/-- The tasks in the order in which they were put in the queue. -/
def puts (acts : List (TaskAct ι τ)) : List τ :=
  acts.filterMap fun
    | .put _ task => some task
    | _ => none

/-- The tasks in the order in which they were run. -/
def invoked (acts : List (TaskAct ι τ)) : List τ :=
  acts.filterMap fun
    | .invoke task => some task
    | _ => none

/-- What the loop has taken out of the queue and not yet run. -/
def taken (s : TaskLoop ι τ) : List τ :=
  match s.loop with
  | .invoking q => q
  | _ => []

/-- A wake-up is ahead. -/
def WakeupAhead (s : TaskLoop ι τ) : Prop :=
  0 < s.eventFd ∨ s.loop = .woken ∨ ∃ i, s.addTask i = some 1

structure Inv (acts : List (TaskAct ι τ)) (s : TaskLoop ι τ) : Prop where
  fifo : invoked acts ++ (s.taken ++ s.taskQueue) = puts acts
  ahead : s.taskQueue ≠ [] → s.WakeupAhead

theorem inv_init : Inv [] ({} : TaskLoop ι τ) := ⟨rfl, fun h => absurd rfl h⟩

theorem puts_snoc (acts : List (TaskAct ι τ)) (a : TaskAct ι τ) :
    puts (acts ++ [a]) = puts acts ++ puts [a] := List.filterMap_append

theorem invoked_snoc (acts : List (TaskAct ι τ)) (a : TaskAct ι τ) :
    invoked (acts ++ [a]) = invoked acts ++ invoked [a] := List.filterMap_append

section Step

variable [DecidableEq ι] [DecidableEq τ] {acts : List (TaskAct ι τ)} {s s' : TaskLoop ι τ}

theorem Inv.put {i : ι} {task : τ} (hi : Inv acts s) (h : s.step (.put i task) = some s') :
    Inv (acts ++ [.put i task]) s' := by
  simp only [step] at h
  split at h
  · rename_i hnone
    cases h
    refine ⟨?_, fun _ => ?_⟩
    · rw [puts_snoc, invoked_snoc, ← hi.fifo]
      show (invoked acts ++ []) ++ (s.taken ++ (s.taskQueue ++ [task])) =
        (invoked acts ++ (s.taken ++ s.taskQueue)) ++ [task]
      simp
    · by_cases hq : s.taskQueue = []
      · -- alone in the queue: the caller is about to write
        exact .inr (.inr ⟨i, by simp [hq]⟩)
      · rcases hi.ahead hq with hfd | hloop | ⟨j, hj⟩
        · exact .inl hfd
        · exact .inr (.inl hloop)
        · have hne : j ≠ i := by
            rintro rfl
            rw [hnone] at hj
            cases hj
          exact .inr (.inr ⟨j, (Function.update_of_ne hne _ _).trans hj⟩)
  · cases h

theorem Inv.wakeup {i : ι} (hi : Inv acts s) (h : s.step (.wakeup i) = some s') :
    Inv (acts ++ [.wakeup i]) s' := by
  simp only [step] at h
  split at h
  · cases h
  · rename_i result hresult
    cases h
    refine ⟨?_, fun hq => ?_⟩
    · rw [puts_snoc, invoked_snoc, ← hi.fifo]
      show (invoked acts ++ []) ++ _ = _ ++ []
      simp only [List.append_nil]
      rfl
    · by_cases hone : result = 1
      · exact .inl (by simp [hone])
      · rcases hi.ahead hq with hfd | hloop | ⟨j, hj⟩
        · exact .inl (by simpa [hone] using hfd)
        · exact .inr (.inl hloop)
        · have hne : j ≠ i := by
            rintro rfl
            rw [hresult] at hj
            exact hone (Option.some.inj hj)
          exact .inr (.inr ⟨j, (Function.update_of_ne hne _ _).trans hj⟩)

theorem Inv.read (hi : Inv acts s) (h : s.step .read = some s') :
    Inv (acts ++ [.read]) s' := by
  simp only [step] at h
  split at h
  · rename_i hidle
    have hfifo : invoked (acts ++ [.read]) ++ (s.taken ++ s.taskQueue) =
        puts (acts ++ [.read]) := by
      rw [puts_snoc, invoked_snoc, ← hi.fifo]
      show (invoked acts ++ []) ++ _ = _ ++ []
      simp only [List.append_nil]
    split at h
    · cases h
      refine ⟨?_, fun _ => .inr (.inl rfl)⟩
      rw [taken, hidle] at hfifo
      exact hfifo
    · cases h
      exact ⟨hfifo, hi.ahead⟩
  · cases h

theorem Inv.swap (hi : Inv acts s) (h : s.step .swap = some s') :
    Inv (acts ++ [.swap]) s' := by
  simp only [step] at h
  split at h
  · rename_i hwoken
    cases h
    refine ⟨?_, fun hq => absurd rfl hq⟩
    have hfifo := hi.fifo
    rw [taken, hwoken] at hfifo
    rw [puts_snoc, invoked_snoc, ← hfifo]
    show (invoked acts ++ []) ++ (s.taskQueue ++ []) = (invoked acts ++ ([] ++ s.taskQueue)) ++ []
    simp
  · cases h

theorem Inv.invoke {task : τ} (hi : Inv acts s) (h : s.step (.invoke task) = some s') :
    Inv (acts ++ [.invoke task]) s' := by
  simp only [step] at h
  split at h
  · rename_i t q hloop
    split at h
    · rename_i heq
      subst heq
      cases h
      refine ⟨?_, fun hq => ?_⟩
      · have hfifo := hi.fifo
        rw [taken, hloop] at hfifo
        rw [puts_snoc, invoked_snoc, ← hfifo]
        show (invoked acts ++ [t]) ++ (q ++ s.taskQueue) =
          (invoked acts ++ ((t :: q) ++ s.taskQueue)) ++ []
        simp
      · rcases hi.ahead hq with hfd | hwoken | hcaller
        · exact .inl hfd
        · rw [hloop] at hwoken
          cases hwoken
        · exact .inr (.inr hcaller)
    · cases h
  · cases h

theorem Inv.finish (hi : Inv acts s) (h : s.step .finish = some s') :
    Inv (acts ++ [.finish]) s' := by
  simp only [step] at h
  split at h
  · rename_i hdone
    cases h
    refine ⟨?_, fun hq => ?_⟩
    · have hfifo := hi.fifo
      rw [taken, hdone] at hfifo
      rw [puts_snoc, invoked_snoc, ← hfifo]
      show (invoked acts ++ []) ++ ([] ++ s.taskQueue) = (invoked acts ++ ([] ++ s.taskQueue)) ++ []
      simp
    · rcases hi.ahead hq with hfd | hwoken | hcaller
      · exact .inl hfd
      · rw [hdone] at hwoken
        cases hwoken
      · exact .inr (.inr hcaller)
  · cases h

theorem Inv.step {a : TaskAct ι τ} (hi : Inv acts s) (h : s.step a = some s') :
    Inv (acts ++ [a]) s' := by
  cases a with
  | put i task => exact hi.put h
  | wakeup i => exact hi.wakeup h
  | read => exact hi.read h
  | swap => exact hi.swap h
  | invoke task => exact hi.invoke h
  | finish => exact hi.finish h

end Step

/-- All calls of `AddTask` have returned, the loop is idle and epoll has nothing
to report. -/
def Quiescent (s : TaskLoop ι τ) : Prop :=
  (∀ i, s.addTask i = none) ∧ s.loop = .idle ∧ s.eventFd = 0

/-- In every interleaving the tasks that have been run are the first ones that
were put in the queue, each of them once and in that order; and when all is
quiet, all of them have been run. -/
theorem tasks_run_in_order [DecidableEq ι] [DecidableEq τ] {acts : List (TaskAct ι τ)}
    {s : TaskLoop ι τ}
    (h : Run (fun s a s' => s.step a = some s') {} acts s) :
    invoked acts <+: puts acts ∧
      (s.Quiescent → invoked acts = puts acts ∧ s.taskQueue = []) := by
  have hi : Inv acts s := h.inv inv_init fun _ _ _ _ hi hs => hi.step hs
  refine ⟨⟨_, hi.fifo⟩, fun ⟨hcallers, hidle, hfd⟩ => ?_⟩
  have hempty : s.taskQueue = [] := by
    by_contra hq
    rcases hi.ahead hq with hpos | hwoken | ⟨i, hone⟩
    · omega
    · rw [hidle] at hwoken
      cases hwoken
    · rw [hcallers i] at hone
      cases hone
  have hfifo := hi.fifo
  rw [taken, hidle, hempty] at hfifo
  exact ⟨by simpa using hfifo, hempty⟩

/-- Two callers: the second one puts its task while the loop has not yet taken
the first. -/
def twoCallers : List (TaskAct (Fin 2) Nat) :=
  [.put 0 10, .put 1 11, .wakeup 0, .read, .wakeup 1, .swap, .invoke 10, .invoke 11, .finish]

theorem tasks_run_in_order_two : ∃ s : TaskLoop (Fin 2) Nat,
    Run (fun s a s' => s.step a = some s') {} twoCallers s ∧ s.Quiescent ∧
      invoked twoCallers = [10, 11] ∧
      (invoked twoCallers <+: puts twoCallers ∧
        (s.Quiescent → invoked twoCallers = puts twoCallers ∧ s.taskQueue = [])) := by
  have hexec : (Run.exec step (fun _ _ => True) ({} : TaskLoop (Fin 2) Nat) twoCallers).map
      (fun s => (s.addTask 0, s.addTask 1, s.loop, s.eventFd)) =
        some (none, none, .idle, 0) := by
    decide
  obtain ⟨s, hs, heq⟩ := Option.map_eq_some_iff.mp hexec
  have hrun : Run (fun s a s' => s.step a = some s') {} twoCallers s :=
    (Run.of_exec hs).imp fun _ _ _ h => h.1
  simp only [Prod.mk.injEq] at heq
  refine ⟨s, hrun, ⟨fun i => ?_, heq.2.2.1, heq.2.2.2⟩, by decide, tasks_run_in_order hrun⟩
  match i with
  | 0 => exact heq.1
  | 1 => exact heq.2.1

end TaskLoop

end Ccbase.Net
