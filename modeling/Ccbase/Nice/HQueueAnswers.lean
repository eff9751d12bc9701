import Ccbase.Lib.Sums
import Ccbase.Nice.HQueueThreads
import Mathlib.Algebra.Order.BigOperators.Group.Multiset
import Mathlib.Data.List.ReduceOption

/-!
# What the threads of an `HQueue` are answered

A caller sees of a call that it was made, and what it returned. In between a value is put behind a
node of the list or refused, or one is taken. `Effect` has these stages, and each step of the code
is one of them or does not show.

So each value that an `Enqueue` answered with true was linked, each that it answered with false was
not, and each value that a `Dequeue` returned was taken.
-/

namespace Ccbase.Nice

open Ccbase.Lib

variable {n : Nat} {T : Type}

/-- How far the call of a thread has come. -/
inductive Stage (T : Type) where
  | idle
  | asked (t : T)
  | linked (t : T)
  | refused (t : T)
  | looking
  | took (ret : Option T)

namespace Stage

/-- The value that an `Enqueue` was called with. -/
def value : Stage T → List T
  | .asked t | .linked t | .refused t => [t]
  | _ => []

/-- The value of an `Enqueue` that has linked it and will return true. -/
def accepting : Stage T → List T
  | .linked t => [t]
  | _ => []

/-- The value of an `Enqueue` that has not linked it. -/
def unlinked : Stage T → List T
  | .asked t | .refused t => [t]
  | _ => []

/-- The value that a `Dequeue` has taken and will return. -/
def holding : Stage T → List T
  | .took ret => ret.toList
  | _ => []

end Stage

def Pc.stage : Pc T → Stage T
  | .idle => .idle
  | .readHint t | .search t _ _ | .resetHint t | .writeHint t _ | .writeValue t _ | .writeNext t _
  | .readTail t _ | .readNext t _ _ | .testTail t _ _ _ | .helpTail t _ _ _
  | .linkNode t _ _ _ => .asked t
  | .swingTail t _ _ | .enqueued t true => .linked t
  | .enqueued t false => .refused t
  | .readHead | .readHeadTail _ | .readHeadNext _ _ | .testHead _ _ _ | .passEmpty _ _
  | .readValue _ _ | .swingHead _ _ _ => .looking
  | .freeHead _ ret | .dequeued ret => .took ret

/-- The steps of a `Dequeue` that settle what it returns. -/
def Pc.settles : Pc T → Bool
  | .readHeadNext _ _ | .testHead _ _ _ | .swingHead _ _ _ | .freeHead _ _ => true
  | _ => false

/-- Where these steps lead. -/
def Pc.settled : Pc T → Bool
  | .testHead _ _ _ | .freeHead _ _ | .dequeued _ => true
  | _ => false

/-- The lists that are kept beside the queue. -/
structure History (T : Type) where
  called : List T
  linked : List T
  taken : List (Option T)
  answered : List (T × Bool)
  returned : List (Option T)

/-- The values of the `Enqueue` calls that have returned `ok`. -/
def History.answers (h : History T) (ok : Bool) : List T :=
  (h.answered.filter fun a => a.2 == ok).map Prod.fst

/-- What a step of a thread does to its call and to the lists. -/
inductive Effect : Stage T → History T → Stage T → History T → Prop where
  | quiet (x : Stage T) (h : History T) : Effect x h x h
  | enqueue (t : T) (h : History T) :
      Effect .idle h (.asked t) { h with called := h.called ++ [t] }
  | link (t : T) (h : History T) :
      Effect (.asked t) h (.linked t) { h with linked := h.linked ++ [t] }
  | refuse (t : T) (h : History T) : Effect (.asked t) h (.refused t) h
  | returnTrue (t : T) (h : History T) :
      Effect (.linked t) h .idle { h with answered := h.answered ++ [(t, true)] }
  | returnFalse (t : T) (h : History T) :
      Effect (.refused t) h .idle { h with answered := h.answered ++ [(t, false)] }
  | dequeue (h : History T) : Effect .idle h .looking h
  | take (ret : Option T) (h : History T) :
      Effect .looking h (.took ret) { h with taken := h.taken ++ [ret] }
  | empty (h : History T) : Effect .looking h (.took none) h
  | give (ret : Option T) (h : History T) :
      Effect (.took ret) h .idle { h with returned := h.returned ++ [ret] }

namespace Effect

variable {x x' : Stage T} {h h' : History T}

theorem linked_prefix (he : Effect x h x' h') : h.linked <+: h'.linked := by
  cases he with
  | link t => exact List.prefix_append ..
  | _ => exact List.prefix_rfl

theorem taken_prefix (he : Effect x h x' h') : h.taken <+: h'.taken := by
  cases he with
  | take ret => exact List.prefix_append ..
  | _ => exact List.prefix_rfl

theorem answers_snoc (h : History T) (t : T) (b ok : Bool) :
    History.answers { h with answered := h.answered ++ [(t, b)] } ok =
      h.answers ok ++ if b = ok then [t] else [] := by
  rw [History.answers, List.filter_append, List.map_append]
  refine congrArg _ ?_
  by_cases hb : b = ok
  · simp [hb]
  · simp [hb]

/-- A value is linked, and the call that has linked it returns true. -/
theorem balance_linked (he : Effect x h x' h') :
    (h'.linked : Multiset T) + (h.answers true + x.accepting) =
      h.linked + (h'.answers true + x'.accepting) := by
  cases he with
  | link t =>
      show ((h.linked ++ [t] : List T) : Multiset T) + (h.answers true + ([] : List T)) =
        h.linked + (h.answers true + ([t] : List T))
      rw [← Multiset.coe_add]
      simp only [Multiset.coe_nil, add_zero]
      abel
  | returnTrue t =>
      rw [answers_snoc, if_pos rfl, ← Multiset.coe_add]
      show (h.linked : Multiset T) + (h.answers true + ([t] : List T)) =
        h.linked + (h.answers true + ([t] : List T) + ([] : List T))
      rw [Multiset.coe_nil, add_zero]
  | returnFalse t =>
      rw [answers_snoc, if_neg Bool.false_ne_true, List.append_nil]
      rfl
  | _ => rfl

/-- A call is made; its value is linked, or it returns false. -/
theorem balance_called (he : Effect x h x' h') :
    (h'.called : Multiset T) + (h.linked + h.answers false + x.unlinked) =
      h.called + (h'.linked + h'.answers false + x'.unlinked) := by
  cases he with
  | enqueue t =>
      show ((h.called ++ [t] : List T) : Multiset T) +
          (h.linked + h.answers false + ([] : List T)) =
        h.called + (h.linked + h.answers false + ([t] : List T))
      rw [← Multiset.coe_add]
      simp only [Multiset.coe_nil, add_zero]
      abel
  | link t =>
      show (h.called : Multiset T) + (h.linked + h.answers false + ([t] : List T)) =
        h.called + (((h.linked ++ [t] : List T) : Multiset T) + h.answers false + ([] : List T))
      rw [← Multiset.coe_add]
      simp only [Multiset.coe_nil, add_zero]
      abel
  | returnTrue t =>
      rw [answers_snoc, if_neg Bool.false_ne_true.symm, List.append_nil]
      rfl
  | returnFalse t =>
      rw [answers_snoc, if_pos rfl, ← Multiset.coe_add]
      show (h.called : Multiset T) + (h.linked + h.answers false + ([t] : List T)) =
        h.called + (h.linked + (h.answers false + ([t] : List T)) + ([] : List T))
      simp only [Multiset.coe_nil, add_zero]
      abel
  | _ => rfl

/-- A value is taken, and the call that has taken it returns it. -/
theorem balance_taken (he : Effect x h x' h') :
    (h'.taken.reduceOption : Multiset T) + (h.returned.reduceOption + x.holding) =
      h.taken.reduceOption + (h'.returned.reduceOption + x'.holding) := by
  cases he with
  | take ret =>
      rw [List.reduceOption_append, ← Multiset.coe_add, List.reduceOption_singleton]
      show (h.taken.reduceOption : Multiset T) + (ret.toList : Multiset T) +
          (h.returned.reduceOption + ([] : List T)) =
        h.taken.reduceOption + (h.returned.reduceOption + (ret.toList : Multiset T))
      simp only [Multiset.coe_nil, add_zero]
      abel
  | give ret =>
      rw [List.reduceOption_append, ← Multiset.coe_add, List.reduceOption_singleton]
      show (h.taken.reduceOption : Multiset T) +
          (h.returned.reduceOption + (ret.toList : Multiset T)) =
        h.taken.reduceOption +
          (h.returned.reduceOption + (ret.toList : Multiset T) + ([] : List T))
      rw [Multiset.coe_nil, add_zero]
  | _ => rfl

/-- A thread whose calls come one after the other. -/
theorem called_in_order (he : Effect x h x' h')
    (hh : h.called = h.answered.map Prod.fst ++ x.value) :
    h'.called = h'.answered.map Prod.fst ++ x'.value := by
  cases he with
  | enqueue t =>
      show h.called ++ [t] = h.answered.map Prod.fst ++ [t]
      rw [hh]
      exact congrArg (· ++ [t]) (List.append_nil _)
  | returnTrue t =>
      rw [List.map_append]
      exact hh.trans (List.append_nil _).symm
  | returnFalse t =>
      rw [List.map_append]
      exact hh.trans (List.append_nil _).symm
  | _ => exact hh

theorem linked_in_order (he : Effect x h x' h') (hh : h.linked = h.answers true ++ x.accepting) :
    h'.linked = h'.answers true ++ x'.accepting := by
  cases he with
  | link t =>
      show h.linked ++ [t] = h.answers true ++ [t]
      rw [hh]
      exact congrArg (· ++ [t]) (List.append_nil _)
  | returnTrue t =>
      rw [answers_snoc, if_pos rfl]
      exact hh.trans (List.append_nil _).symm
  | returnFalse t =>
      rw [answers_snoc, if_neg Bool.false_ne_true, List.append_nil]
      exact hh
  | _ => exact hh

/-- A thread that does not enqueue. -/
theorem keeps_order (he : Effect x h x' h') (hx : x.value = []) (hx' : x'.value = []) :
    h'.called = h.called ∧ h'.linked = h.linked ∧ h'.answered = h.answered := by
  cases he with
  | enqueue t => cases hx'
  | link t => cases hx
  | returnTrue t => cases hx
  | returnFalse t => cases hx
  | _ => exact ⟨rfl, rfl, rfl⟩

theorem value_nil (he : Effect x h x' h') (hx : x.value = []) (hidle : x ≠ .idle) :
    x'.value = [] := by
  cases he with
  | quiet => exact hx
  | enqueue t => exact absurd rfl hidle
  | link t => cases hx
  | refuse t => cases hx
  | _ => rfl

end Effect

namespace Threads

variable {s s' : Threads n T} {u v : Fin n} {e : Event n T}

def history (s : Threads n T) : History T where
  called := s.called
  linked := s.linked
  taken := s.taken
  answered := s.answered
  returned := s.returned

/-- The calls, the values of the list and the answers. A value that was linked is accepted, and
one that was taken is returned; only the calls that are still running come in between. -/
structure Answered (s : Threads n T) : Prop where
  called : (s.called : Multiset T) =
    s.linked + s.history.answers false + ∑ u, ((s.pc u).stage.unlinked : Multiset T)
  linked : (s.linked : Multiset T) =
    s.history.answers true + ∑ u, ((s.pc u).stage.accepting : Multiset T)
  taken : (s.taken.reduceOption : Multiset T) =
    s.returned.reduceOption + ∑ u, ((s.pc u).stage.holding : Multiset T)

/-- What a step of thread `u` does. -/
structure Counts (s s' : Threads n T) (u : Fin n) : Prop where
  pc : ∀ v, v ≠ u → s'.pc v = s.pc v
  effect : Effect (s.pc u).stage s.history (s'.pc u).stage s'.history
  settled : (s.pc u).settles = true ∨ (s'.pc u).settled = false

theorem Counts.goto {s₁ : Threads n T} {p p' : Pc T} (hpc : s.pc u = p) (hsame : s₁.pc = s.pc)
    (he : Effect p.stage s.history p'.stage s₁.history)
    (hs : p.settles = true ∨ p'.settled = false) : Counts s (s₁.goto u p') u where
  pc := fun v hv => by rw [goto_pc_of_ne _ hv, hsame]
  effect := by
    rw [goto_pc_self, hpc]
    exact he
  settled := by
    rw [goto_pc_self, hpc]
    exact hs

/-- Most steps only move on, with or without a write to the queue. -/
theorem Counts.quiet {q : HQueue T} {p p' : Pc T} (hpc : s.pc u = p) (hstage : p'.stage = p.stage)
    (hs : p.settles = true ∨ p'.settled = false) : Counts s ((s.setQueue q).goto u p') u :=
  .goto hpc rfl (by rw [hstage]; exact .quiet _ _) hs

theorem run_counts (hrun : s.run u = some s') : Counts s s' u := by
  cases hpc : s.pc u with
  | idle => simp only [run, hpc, reduceCtorEq] at hrun
  | search t again i =>
      simp only [run, hpc] at hrun
      by_cases hi : i < s.queue.queueSize
      · rw [if_pos hi] at hrun
        by_cases hfree : (s.queue.nodes i).free = true
        · rw [if_pos hfree] at hrun
          cases hrun
          exact .quiet hpc rfl (Or.inr rfl)
        · rw [if_neg hfree] at hrun
          cases hrun
          exact .quiet hpc rfl (Or.inr rfl)
      · rw [if_neg hi] at hrun
        cases hrun
        -- only the second search refuses the value
        cases again with
        | true => exact .goto hpc rfl (.refuse t _) (Or.inr rfl)
        | false => exact .quiet hpc rfl (Or.inr rfl)
  | readTail t i =>
      simp only [run, hpc, Option.some.injEq] at hrun
      subst hrun
      split
      · exact .quiet hpc rfl (Or.inr rfl)
      · exact .quiet hpc rfl (Or.inr rfl)
  | testTail t i tail next =>
      simp only [run, hpc, Option.some.injEq] at hrun
      subst hrun
      split
      · exact .quiet hpc rfl (Or.inr rfl)
      · split
        · exact .quiet hpc rfl (Or.inr rfl)
        · exact .quiet hpc rfl (Or.inr rfl)
  | linkNode t i tail next =>
      simp only [run, hpc] at hrun
      by_cases hsame : (s.queue.target tail).next.same next = true
      · rw [if_pos hsame] at hrun
        cases hrun
        exact .goto hpc rfl (.link t _) (Or.inr rfl)
      · rw [if_neg hsame] at hrun
        cases hrun
        exact .quiet hpc rfl (Or.inr rfl)
  | enqueued t ok =>
      simp only [run, hpc, Option.some.injEq] at hrun
      subst hrun
      cases ok with
      | true => exact .goto hpc rfl (.returnTrue t _) (Or.inr rfl)
      | false => exact .goto hpc rfl (.returnFalse t _) (Or.inr rfl)
  | readHeadTail head =>
      simp only [run, hpc, Option.some.injEq] at hrun
      subst hrun
      split
      · exact .quiet hpc rfl (Or.inr rfl)
      · exact .quiet hpc rfl (Or.inr rfl)
  | readHeadNext head tail =>
      simp only [run, hpc, Option.some.injEq] at hrun
      subst hrun
      exact .quiet hpc rfl (Or.inl rfl)
  | testHead head tail next =>
      simp only [run, hpc, Option.some.injEq] at hrun
      subst hrun
      refine .goto hpc rfl ?_ (Or.inl rfl)
      -- one of the five ways on returns nullptr, and nothing is taken
      split
      · exact .quiet _ _
      · split
        · split
          · exact .empty _
          · exact .quiet _ _
        · split
          · exact .quiet _ _
          · exact .quiet _ _
  | swingHead head next ret =>
      simp only [run, hpc] at hrun
      by_cases hsame : s.queue.qhead.same head = true
      · rw [if_pos hsame] at hrun
        cases hrun
        exact .goto hpc rfl (.take ret _) (Or.inl rfl)
      · rw [if_neg hsame] at hrun
        cases hrun
        exact .quiet hpc rfl (Or.inl rfl)
  | freeHead head ret =>
      simp only [run, hpc, Option.some.injEq] at hrun
      subst hrun
      exact .quiet hpc rfl (Or.inl rfl)
  | dequeued ret =>
      simp only [run, hpc, Option.some.injEq] at hrun
      subst hrun
      exact .goto hpc rfl (.give ret _) (Or.inr rfl)
  | _ =>
      simp only [run, hpc, Option.some.injEq] at hrun
      subst hrun
      exact .quiet hpc rfl (Or.inr rfl)

/-- A call puts its value down, and the other steps are those of `run`. -/
theorem step_cases (hstep : s.step e = some s') :
    (∃ u t, e = .enqueue u t ∧ s.pc u = .idle ∧
      s' = { s with called := s.called ++ [t] }.goto u (.readHint t)) ∨
    (∃ u, e = .dequeue u ∧ s.pc u = .idle ∧ s' = s.goto u .readHead) ∨
    ∃ u, e = .run u ∧ s.run u = some s' := by
  cases e with
  | enqueue u t =>
      cases hpc : s.pc u with
      | idle =>
          simp only [step, hpc, Option.some.injEq] at hstep
          exact Or.inl ⟨u, t, rfl, hpc, hstep.symm⟩
      | _ => simp only [step, hpc, reduceCtorEq] at hstep
  | dequeue u =>
      cases hpc : s.pc u with
      | idle =>
          simp only [step, hpc, Option.some.injEq] at hstep
          exact Or.inr (Or.inl ⟨u, rfl, hpc, hstep.symm⟩)
      | _ => simp only [step, hpc, reduceCtorEq] at hstep
  | run u => exact Or.inr (Or.inr ⟨u, rfl, hstep⟩)

theorem step_counts (hstep : s.step e = some s') : Counts s s' e.thread := by
  rcases step_cases hstep with ⟨u, t, rfl, hpc, rfl⟩ | ⟨u, rfl, hpc, rfl⟩ | ⟨u, rfl, hrun⟩
  · exact .goto hpc rfl (.enqueue t _) (Or.inr rfl)
  · exact .goto hpc rfl (.dequeue _) (Or.inr rfl)
  · exact run_counts hrun

theorem step_linked (hstep : s.step e = some s') : s.linked <+: s'.linked :=
  (step_counts hstep).effect.linked_prefix

theorem step_taken (hstep : s.step e = some s') : s.taken <+: s'.taken :=
  (step_counts hstep).effect.taken_prefix

theorem step_pc (hstep : s.step e = some s') (hv : v ≠ e.thread) : s'.pc v = s.pc v :=
  (step_counts hstep).pc v hv

theorem answered_start (n : Nat) (q : HQueue T) : (start n q).Answered := by
  refine ⟨?_, ?_, ?_⟩ <;> simp [start, history, History.answers, Pc.stage, Stage.unlinked,
    Stage.accepting, Stage.holding]

theorem Answered.step (h : s.Answered) (hstep : s.step e = some s') : s'.Answered := by
  have hc := step_counts hstep
  refine ⟨?_, ?_, ?_⟩
  · refine sum_balance h.called (fun v hv => ?_) hc.effect.balance_called
    rw [hc.pc v hv]
  · refine sum_balance h.linked (fun v hv => ?_) hc.effect.balance_linked
    rw [hc.pc v hv]
  · refine sum_balance h.taken (fun v hv => ?_) hc.effect.balance_taken
    rw [hc.pc v hv]

/-- What has been linked was called for. -/
theorem Answered.linked_le (h : s.Answered) : (s.linked : Multiset T) ≤ s.called := by
  rw [h.called, add_assoc]
  exact Multiset.le_add_right _ _

/-! ## One thread that enqueues -/

/-- All calls of `Enqueue` are from thread `p`: they come one after the other. -/
structure OnlyFrom (s : Threads n T) (p : Fin n) : Prop where
  others : ∀ v, v ≠ p → (s.pc v).stage.value = []
  called : s.called = s.answered.map Prod.fst ++ (s.pc p).stage.value
  linked : s.linked = s.history.answers true ++ (s.pc p).stage.accepting

theorem run_not_idle (hrun : s.run u = some s') : (s.pc u).stage ≠ .idle := by
  intro hstage
  cases hpc : s.pc u with
  | idle => simp only [run, hpc, reduceCtorEq] at hrun
  | enqueued t ok =>
      rw [hpc] at hstage
      cases ok with
      | true => cases hstage
      | false => cases hstage
  | _ =>
      rw [hpc] at hstage
      cases hstage

theorem OnlyFrom.step {p : Fin n} (h : s.OnlyFrom p) (hstep : s.step e = some s')
    (hone : ∀ u t, e = .enqueue u t → u = p) : s'.OnlyFrom p := by
  have hc := step_counts hstep
  by_cases hp : e.thread = p
  · subst hp
    refine ⟨fun v hv => ?_, hc.effect.called_in_order h.called,
      hc.effect.linked_in_order h.linked⟩
    rw [hc.pc v hv]
    exact h.others v hv
  · have hx := h.others e.thread hp
    have hx' : (s'.pc e.thread).stage.value = [] := by
      rcases step_cases hstep with ⟨u, t, rfl, -, -⟩ | ⟨u, rfl, -, rfl⟩ | ⟨u, rfl, hrun⟩
      · exact absurd (hone u t rfl) hp
      · rw [show Event.thread (.dequeue u) = u from rfl, goto_pc_self]
        rfl
      · exact (run_counts hrun).effect.value_nil hx (run_not_idle hrun)
    obtain ⟨hcalled, hlinked, hanswered⟩ := hc.effect.keeps_order hx hx'
    refine ⟨fun v hv => ?_, ?_, ?_⟩
    · by_cases hve : v = e.thread
      · rw [hve]
        exact hx'
      · rw [hc.pc v hve]
        exact h.others v hv
    · have hold := h.called
      rw [hc.pc p (Ne.symm hp), show s'.called = s.called from hcalled,
        show s'.answered = s.answered from hanswered]
      exact hold
    · have hold := h.linked
      rw [hc.pc p (Ne.symm hp), show s'.linked = s.linked from hlinked, History.answers,
        hanswered]
      exact hold

theorem onlyFrom_start (q : HQueue T) (p : Fin n) : (start n q).OnlyFrom p :=
  ⟨fun _ _ => rfl, rfl, rfl⟩

end Threads

end Ccbase.Nice
