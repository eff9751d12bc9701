import Ccbase.Lib.Sums
import Ccbase.Libc.ConcurrentQueue
import Mathlib.Algebra.Order.BigOperators.Group.Multiset

/-!
# What the threads of a `ConcurrentQueue` are answered

A caller sees of a call that it was made, and what it returned. In between a value is
linked under `tail_mutex` or taken under `head_mutex`. `Effect` has these stages, and
each event is one of them or does not show.
-/

namespace Ccbase.Libc

open Ccbase.Lib

variable {n : Nat} {D : Type}

/-- How far the call of a thread has come. -/
inductive Stage (D : Type) where
  | idle
  | entering (data : D)
  | entered (data : D)
  | looking (blocking : Bool)
  | took (blocking : Bool) (result : D)

namespace Stage

/-- The value of an enqueuer that has not linked it. -/
def unlinked : Stage D → List D
  | .entering data => [data]
  | _ => []

/-- The value of an enqueuer that has linked it. -/
def linked : Stage D → List D
  | .entered data => [data]
  | _ => []

/-- The value that a dequeuer has taken and will return. -/
def holding : Stage D → List D
  | .took _ result => [result]
  | _ => []

/-- The call of a dequeuer. -/
def asking : Stage D → List Bool
  | .looking blocking | .took blocking _ => [blocking]
  | _ => []

end Stage

def Pc.stage : Pc D → Stage D
  | .idle => .idle
  | .lockTail _ data | .readTail _ data | .writeNext _ data _ => .entering data
  | .writeTail _ data | .unlockTail data | .signal data => .entered data
  | .lockHead blocking | .readHead blocking | .testNext blocking _ | .readDummy blocking
  | .readNext blocking _ | .readData blocking _ _ | .writeHead blocking _ _ _ => .looking blocking
  | .wait | .waiting | .woken => .looking true
  | .unlockEmpty => .looking false
  | .unlockHead blocking _ result | .freeDummy blocking _ result => .took blocking result

/-- The value that a call brings. -/
def Event.value : Event n D → Option D
  | .enqueue _ data => some data
  | _ => none

/-- Whether a call for a value may block. -/
def Event.blocking : Event n D → Option Bool
  | .dequeue _ => some true
  | .tryDequeue _ => some false
  | _ => none

/-- Who takes the step. -/
def Event.thread : Event n D → Fin n
  | .enqueue t _ | .dequeue t | .tryDequeue t | .run t | .signal t _ | .spurious t => t

namespace Answer

/-- The value that a call has got. -/
def result : Answer D → Option D
  | .value result | .found result => some result
  | .empty => none

/-- Whether the call was one that may block. -/
def blocking : Answer D → Bool
  | .value _ => true
  | .found _ | .empty => false

@[simp] theorem of_result (blocking : Bool) (result : D) :
    (of blocking result).result = some result := by
  cases blocking <;> rfl

@[simp] theorem of_blocking (blocking : Bool) (result : D) :
    (of blocking result).blocking = blocking := by
  cases blocking <;> rfl

end Answer

/-- The calls, the values of the sections, and what was returned. -/
structure History (D : Type) where
  called : List D
  asked : List Bool
  enqueued : List D
  dequeued : List D
  finished : List D
  answers : List (Answer D)

/-- What an event does to the call of its thread and to the history. -/
inductive Effect : Stage D → History D → Stage D → History D → Prop where
  | quiet (x : Stage D) (h : History D) : Effect x h x h
  | call (data : D) (h : History D) :
      Effect .idle h (.entering data) { h with called := h.called ++ [data] }
  | link (data : D) (h : History D) :
      Effect (.entering data) h (.entered data) { h with enqueued := h.enqueued ++ [data] }
  | finish (data : D) (h : History D) :
      Effect (.entered data) h .idle { h with finished := h.finished ++ [data] }
  | ask (blocking : Bool) (h : History D) :
      Effect .idle h (.looking blocking) { h with asked := h.asked ++ [blocking] }
  | take (blocking : Bool) (result : D) (h : History D) :
      Effect (.looking blocking) h (.took blocking result)
        { h with dequeued := h.dequeued ++ [result] }
  | give (blocking : Bool) (result : D) (h : History D) :
      Effect (.took blocking result) h .idle
        { h with answers := h.answers ++ [.of blocking result] }
  | empty (h : History D) :
      Effect (.looking false) h .idle { h with answers := h.answers ++ [.empty] }

namespace Effect

variable {x x' : Stage D} {h h' : History D}

/-- A value is brought, and linked. -/
theorem balance_called (he : Effect x h x' h') :
    (h'.called : Multiset D) + (h.enqueued + x.unlinked) =
      h.called + (h'.enqueued + x'.unlinked) := by
  cases he with
  | call data =>
      show ((h.called ++ [data] : List D) : Multiset D) + (h.enqueued + ([] : List D)) =
        h.called + (h.enqueued + ([data] : List D))
      rw [← Multiset.coe_add]
      simp only [Multiset.coe_nil, add_zero]
      abel
  | link data =>
      show (h.called : Multiset D) + (h.enqueued + ([data] : List D)) =
        h.called + ((h.enqueued ++ [data] : List D) + ([] : List D))
      rw [← Multiset.coe_add, Multiset.coe_nil, add_zero]
  | _ => rfl

/-- A value is linked, and its call returns. -/
theorem balance_enqueued (he : Effect x h x' h') :
    (h'.enqueued : Multiset D) + (h.finished + x.linked) =
      h.enqueued + (h'.finished + x'.linked) := by
  cases he with
  | link data =>
      show ((h.enqueued ++ [data] : List D) : Multiset D) + (h.finished + ([] : List D)) =
        h.enqueued + (h.finished + ([data] : List D))
      rw [← Multiset.coe_add]
      simp only [Multiset.coe_nil, add_zero]
      abel
  | finish data =>
      show (h.enqueued : Multiset D) + (h.finished + ([data] : List D)) =
        h.enqueued + ((h.finished ++ [data] : List D) + ([] : List D))
      rw [← Multiset.coe_add, Multiset.coe_nil, add_zero]
  | _ => rfl

/-- A value is taken, and the call returns it. -/
theorem balance_dequeued (he : Effect x h x' h') :
    (h'.dequeued : Multiset D) + (h.answers.filterMap Answer.result + x.holding) =
      h.dequeued + (h'.answers.filterMap Answer.result + x'.holding) := by
  cases he with
  | take blocking result =>
      show ((h.dequeued ++ [result] : List D) : Multiset D) +
          (h.answers.filterMap Answer.result + ([] : List D)) =
        h.dequeued + (h.answers.filterMap Answer.result + ([result] : List D))
      rw [← Multiset.coe_add]
      simp only [Multiset.coe_nil, add_zero]
      abel
  | give blocking result =>
      rw [List.filterMap_append, List.filterMap_cons_some (Answer.of_result blocking result),
        ← Multiset.coe_add]
      show (h.dequeued : Multiset D) +
          (h.answers.filterMap Answer.result + ([result] : List D)) =
        h.dequeued + (h.answers.filterMap Answer.result + ([result] : List D) + ([] : List D))
      rw [Multiset.coe_nil, add_zero]
  | empty =>
      rw [List.filterMap_append, List.filterMap_cons_none rfl, ← Multiset.coe_add]
      show (h.dequeued : Multiset D) + (h.answers.filterMap Answer.result + ([] : List D)) =
        h.dequeued + (h.answers.filterMap Answer.result + ([] : List D) + ([] : List D))
      simp only [Multiset.coe_nil, add_zero]
  | _ => rfl

/-- A call is made, and it returns. -/
theorem balance_asked (he : Effect x h x' h') :
    (h'.asked : Multiset Bool) + (h.answers.map Answer.blocking + x.asking) =
      h.asked + (h'.answers.map Answer.blocking + x'.asking) := by
  cases he with
  | ask blocking =>
      show ((h.asked ++ [blocking] : List Bool) : Multiset Bool) +
          (h.answers.map Answer.blocking + ([] : List Bool)) =
        h.asked + (h.answers.map Answer.blocking + ([blocking] : List Bool))
      rw [← Multiset.coe_add]
      simp only [Multiset.coe_nil, add_zero]
      abel
  | give blocking result =>
      rw [List.map_append, List.map_singleton, Answer.of_blocking, ← Multiset.coe_add]
      show (h.asked : Multiset Bool) +
          (h.answers.map Answer.blocking + ([blocking] : List Bool)) =
        h.asked + (h.answers.map Answer.blocking + ([blocking] : List Bool) + ([] : List Bool))
      rw [Multiset.coe_nil, add_zero]
  | empty =>
      rw [List.map_append, List.map_singleton, ← Multiset.coe_add]
      show (h.asked : Multiset Bool) + (h.answers.map Answer.blocking + ([false] : List Bool)) =
        h.asked + (h.answers.map Answer.blocking + ([false] : List Bool) + ([] : List Bool))
      rw [Multiset.coe_nil, add_zero]
  | _ => rfl

end Effect

namespace ConcurrentQueue

variable {q q₁ : ConcurrentQueue n D} {t : Fin n} {es : List (Event n D)} {e : Event n D}

/-- The history of a run `es` that ends with `q`. -/
def history (q : ConcurrentQueue n D) (es : List (Event n D)) : History D where
  called := es.filterMap Event.value
  asked := es.filterMap Event.blocking
  enqueued := q.enqueued
  dequeued := q.dequeued
  finished := q.finished
  answers := q.answers

/-- The calls of a run, the values of the sections, and the answers. Every value that a call
brings is linked once and every value taken is returned once, and every call is answered once;
only the calls that still run come in between. -/
structure Answered (q : ConcurrentQueue n D) (es : List (Event n D)) : Prop where
  called : (es.filterMap Event.value : Multiset D) =
    q.enqueued + ∑ u, ((q.pc u).stage.unlinked : Multiset D)
  enqueued : (q.enqueued : Multiset D) =
    q.finished + ∑ u, ((q.pc u).stage.linked : Multiset D)
  dequeued : (q.dequeued : Multiset D) =
    q.answers.filterMap Answer.result + ∑ u, ((q.pc u).stage.holding : Multiset D)
  asked : (es.filterMap Event.blocking : Multiset Bool) =
    q.answers.map Answer.blocking + ∑ u, ((q.pc u).stage.asking : Multiset Bool)

/-- What an event does to the calls. -/
structure Counts (q q₁ : ConcurrentQueue n D) (es : List (Event n D)) (e : Event n D) : Prop where
  others : ∀ u, u ≠ e.thread → (q₁.pc u).stage = (q.pc u).stage
  effect : Effect (q.pc e.thread).stage (q.history es) (q₁.pc e.thread).stage
    (q₁.history (es ++ [e]))

theorem history_call (q : ConcurrentQueue n D) (es : List (Event n D)) (t : Fin n) (data : D) :
    q.history (es ++ [.enqueue t data]) =
      { q.history es with called := (q.history es).called ++ [data] } := by
  simp [history, Event.value, Event.blocking]

theorem history_ask (q : ConcurrentQueue n D) (es : List (Event n D)) {blocking : Bool}
    (hvalue : e.value = none) (hblocking : e.blocking = some blocking) :
    q.history (es ++ [e]) =
      { q.history es with asked := (q.history es).asked ++ [blocking] } := by
  simp [history, hvalue, hblocking]

/-- An event that is no call. -/
theorem history_quiet (q : ConcurrentQueue n D) (es : List (Event n D)) (hvalue : e.value = none)
    (hblocking : e.blocking = none) : q.history (es ++ [e]) = q.history es := by
  simp [history, hvalue, hblocking]

/-- The thread of the event goes on to `p'`. -/
theorem Counts.goto {p p' : Pc D} (hpc : q.pc e.thread = p) (hother : q₁.pc = q.pc)
    (he : Effect p.stage (q.history es) p'.stage (q₁.history (es ++ [e]))) :
    Counts q (q₁.goto e.thread p') es e where
  others := fun u hu => by rw [goto_pc_of_ne q₁ hu, hother]
  effect := by
    rw [goto_pc_self, hpc]
    exact he

theorem Counts.run {p p' : Pc D} (hpc : q.pc t = p) (hother : q₁.pc = q.pc)
    (he : Effect p.stage (q.history es) p'.stage (q₁.history es)) :
    Counts q (q₁.goto t p') es (.run t) := by
  refine Counts.goto (e := .run t) hpc hother ?_
  rw [history_quiet q₁ es rfl rfl]
  exact he

theorem Counts.crash (es : List (Event n D)) (t : Fin n) : Counts q q.crash es (.run t) where
  others := fun _ _ => rfl
  effect := by
    rw [history_quiet q.crash es rfl rfl]
    exact .quiet _ _

theorem run_counts (h : q.run t = some q₁) : Counts q q₁ es (.run t) := by
  rw [ConcurrentQueue.run] at h
  cases hpc : q.pc t with
  | idle | signal | waiting =>
      rw [hpc] at h
      cases h
  | lockTail | lockHead | woken =>
      rw [hpc] at h
      dsimp only at h
      split at h
      · cases h
        exact .run hpc rfl (.quiet _ _)
      · cases h
  | readTail | writeTail | unlockTail | readHead | wait | readDummy | unlockHead =>
      rw [hpc] at h
      cases h
      exact .run hpc rfl (.quiet _ _)
  | writeNext node data tail =>
      rw [hpc] at h
      dsimp only at h
      split at h
      · cases h
        exact .crash es t
      · cases h
        exact .run hpc rfl (.link data _)
  | testNext blocking head =>
      rw [hpc] at h
      dsimp only at h
      split at h
      · cases h
        exact .crash es t
      · split at h
        · cases h
          cases blocking with
          | true => exact .run hpc rfl (.quiet _ _)
          | false => exact .run hpc rfl (.quiet _ _)
        · cases h
          exact .run hpc rfl (.quiet _ _)
  | unlockEmpty =>
      rw [hpc] at h
      cases h
      exact .run hpc rfl (.empty _)
  | readNext blocking dummy =>
      rw [hpc] at h
      dsimp only at h
      split at h
      · cases h
        exact .crash es t
      · cases h
        exact .run hpc rfl (.quiet _ _)
  | readData blocking dummy resultNode =>
      rw [hpc] at h
      dsimp only at h
      split at h
      · cases h
        exact .crash es t
      · cases h
        exact .run hpc rfl (.quiet _ _)
  | writeHead blocking dummy resultNode result =>
      rw [hpc] at h
      cases h
      exact .run hpc rfl (.take blocking result _)
  | freeDummy blocking dummy result =>
      rw [hpc] at h
      dsimp only at h
      split at h
      · cases h
        exact .crash es t
      · cases h
        exact .run hpc rfl (.give blocking result _)

theorem stage_of_waiting {p : Pc D} (h : p.isWaiting = true) : p.stage = .looking true := by
  cases p <;> first | rfl | cases h

theorem stage_wake {u : Fin n} (hwait : (q.pc u).isWaiting = true) (v : Fin n) :
    ((q.goto u .woken).pc v).stage = (q.pc v).stage := by
  by_cases hv : v = u
  · rw [hv, goto_pc_self, stage_of_waiting hwait]
    rfl
  · rw [q.goto_pc_of_ne hv]

theorem Counts.finish {data : D} {wakes : Option (Fin n)} (hpc : q.pc t = .signal data)
    (hstage : ∀ u, u ≠ t → (q₁.pc u).stage = (q.pc u).stage)
    (hsame : q₁.history es = q.history es) :
    Counts q (q₁.finish t data) es (.signal t wakes) where
  others := fun u hu => by
    have hut : u ≠ t := hu
    rw [ConcurrentQueue.finish, goto_pc_of_ne _ hut]
    exact hstage u hut
  effect := by
    show Effect (q.pc t).stage _ ((q₁.finish t data).pc t).stage _
    rw [ConcurrentQueue.finish, goto_pc_self, hpc, history_quiet _ es rfl rfl, ← hsame]
    exact .finish data (q₁.history es)

theorem step_counts (es : List (Event n D)) (h : q.step e = some q₁) : Counts q q₁ es e := by
  cases e with
  | enqueue t data =>
      rw [step] at h
      split at h
      · rename_i hpc
        cases h
        refine .goto (e := .enqueue t data) hpc rfl ?_
        rw [history_call]
        exact .call data _
      · cases h
  | dequeue t =>
      rw [step] at h
      split at h
      · rename_i hpc
        cases h
        refine .goto (e := .dequeue t) hpc rfl ?_
        rw [history_ask q es rfl rfl]
        exact .ask true _
      · cases h
  | tryDequeue t =>
      rw [step] at h
      split at h
      · rename_i hpc
        cases h
        refine .goto (e := .tryDequeue t) hpc rfl ?_
        rw [history_ask q es rfl rfl]
        exact .ask false _
      · cases h
  | run t => exact run_counts h
  | signal t wakes =>
      rw [step] at h
      split at h
      · rename_i data hpc
        split at h
        · rename_i u
          split at h
          · rename_i hwait
            cases h
            exact .finish hpc (fun v _ => stage_wake hwait v) rfl
          · cases h
        · split at h
          · cases h
            exact .finish hpc (fun _ _ => rfl) rfl
          · cases h
      · cases h
  | spurious t =>
      rw [step] at h
      split at h
      · rename_i hwait
        cases h
        refine .goto (e := .spurious t) rfl rfl ?_
        rw [history_quiet q es rfl rfl]
        show Effect (q.pc t).stage _ _ _
        rw [stage_of_waiting hwait]
        exact .quiet _ _
      · cases h

theorem answered_init (n : Nat) (null : D) : (init n null).Answered [] := by
  refine ⟨?_, ?_, ?_, ?_⟩ <;> simp [init, Pc.stage, Stage.unlinked, Stage.linked, Stage.holding,
    Stage.asking]

theorem Answered.step (h : q.Answered es) (hstep : q.step e = some q₁) :
    q₁.Answered (es ++ [e]) := by
  have hc := step_counts es hstep
  refine ⟨?_, ?_, ?_, ?_⟩
  · refine sum_balance h.called (fun u hu => ?_) hc.effect.balance_called
    rw [hc.others u hu]
  · refine sum_balance h.enqueued (fun u hu => ?_) hc.effect.balance_enqueued
    rw [hc.others u hu]
  · refine sum_balance h.dequeued (fun u hu => ?_) hc.effect.balance_dequeued
    rw [hc.others u hu]
  · refine sum_balance h.asked (fun u hu => ?_) hc.effect.balance_asked
    rw [hc.others u hu]

/-- After any run every call has been answered, or goes on. -/
theorem run_answered {null : D}
    (h : Run (fun q e q' => q.step e = some q') (init n null) es q) : q.Answered es :=
  h.inv (I := fun es q => q.Answered es) (answered_init n null)
    fun _ _ _ _ ih hstep => ih.step hstep

end ConcurrentQueue

end Ccbase.Libc
