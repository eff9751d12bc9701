import Ccbase.Memory.Pool

/-!
# The events of a buffer

What the operations of `EventBase` do to the pending events of each user stream.
No user stream has an entry with an empty list (`WellFormed`), so that
`IsEventNotUsed` says that no event is pending at all.

`WaitEvent` of the pool takes an `int64_t` and passes it on as a `uint32_t`. The
last part of the module says for which task ids this makes no difference.
-/

namespace Ccbase.Memory

open Ccbase.Lib

namespace EventBase

variable {e : EventBase}

/-- A user stream with an entry has a pending event. -/
def WellFormed (e : EventBase) : Prop :=
  ∀ events u, e.events = some events → events.lookup u ≠ some []

theorem pending_eq {events : UMap Nat (List (Int × DeviceEvent))} (h : e.events = some events)
    (u : Nat) : e.pending u = (events.lookup u).getD [] := by
  unfold pending
  rw [h]

theorem pending_of_isEventNotUsed (h : e.isEventNotUsed = true) (u : Nat) :
    e.pending u = [] := by
  unfold isEventNotUsed at h
  cases hev : e.events with
  | none =>
      unfold pending
      rw [hev]
  | some events =>
      rw [hev] at h
      have hnone : events.lookup u = none := by
        rw [AList.lookup_eq_none]
        intro hmem
        rw [List.isEmpty_iff] at h
        rw [AList.mem_keys, AList.keys, h] at hmem
        cases hmem
      rw [pending_eq hev, hnone]
      rfl

theorem wellFormed_of_isEventNotUsed (h : e.isEventNotUsed = true) : e.WellFormed := by
  intro events u hev hl
  unfold isEventNotUsed at h
  rw [hev] at h
  rw [List.isEmpty_iff] at h
  have hmem : u ∈ events.keys :=
    AList.mem_keys.mpr (AList.lookup_isSome.mp (by rw [hl]; rfl))
  rw [AList.keys, h] at hmem
  cases hmem

/-- Some event is pending. -/
theorem exists_pending (hwf : e.WellFormed) (h : e.isEventNotUsed = false) :
    ∃ u, e.pending u ≠ [] := by
  unfold isEventNotUsed at h
  cases hev : e.events with
  | none =>
      rw [hev] at h
      cases h
  | some events =>
      rw [hev] at h
      dsimp only at h
      cases hent : events.entries with
      | nil =>
          rw [hent] at h
          cases h
      | cons x xs =>
          have hmem : x.1 ∈ events.keys := by
            rw [AList.keys, hent]
            exact List.mem_cons_self ..
          obtain ⟨l, hl⟩ := Option.isSome_iff_exists.mp
            (AList.lookup_isSome.mpr (AList.mem_keys.mp hmem))
          refine ⟨x.1, ?_⟩
          rw [pending_eq hev, hl]
          exact fun hnil => hwf events x.1 hev (by rw [hl, show l = [] from hnil])

theorem isEventNotUsed_of_pending (hwf : e.WellFormed) (h : ∀ u, e.pending u = []) :
    e.isEventNotUsed = true := by
  cases hq : e.isEventNotUsed with
  | true => rfl
  | false =>
      obtain ⟨u, hu⟩ := exists_pending hwf hq
      exact absurd (h u) hu

theorem isEventNotUsed_eq_false {u : Nat} (h : e.pending u ≠ []) : e.isEventNotUsed = false := by
  cases hq : e.isEventNotUsed with
  | false => rfl
  | true => exact absurd (pending_of_isEventNotUsed hq u) h

/-! ## `RecordEvent` -/

theorem pending_recordEvent (e : EventBase) (t : Int) (u : Nat) (ev : DeviceEvent) (v : Nat) :
    (e.recordEvent t u ev).pending v =
      if v = u then e.pending u ++ [(t, ev)] else e.pending v := by
  have hold : ∀ w, (((e.events.getD ∅).lookup w).getD []) = e.pending w := by
    intro w
    unfold pending
    cases e.events with
    | none => rfl
    | some events => rfl
  unfold recordEvent
  rw [pending_eq rfl]
  by_cases hv : v = u
  · subst hv
    rw [AList.lookup_insert, if_pos rfl, ← hold]
    rfl
  · rw [AList.lookup_insert_ne hv, if_neg hv, ← hold]

theorem recordEvent_wellFormed (hwf : e.WellFormed) (t : Int) (u : Nat) (ev : DeviceEvent) :
    (e.recordEvent t u ev).WellFormed := by
  intro events v hev
  cases hev
  by_cases hv : v = u
  · subst hv
    rw [AList.lookup_insert]
    intro heq
    simp at heq
  · rw [AList.lookup_insert_ne hv]
    cases hev : e.events with
    | none => nofun
    | some events => exact hwf events v hev

theorem isEventNotUsed_recordEvent (e : EventBase) (t : Int) (u : Nat) (ev : DeviceEvent) :
    (e.recordEvent t u ev).isEventNotUsed = false := by
  refine isEventNotUsed_eq_false (u := u) ?_
  rw [pending_recordEvent, if_pos rfl]
  simp

/-! ## `WaitEvent` -/

/-- Popping events from a buffer without events does nothing. -/
theorem waitEvent_of_isEventNotUsed (h : e.isEventNotUsed = true) (n u : Nat) :
    (e.waitEvent n u).2 = e := by
  have hp := pending_of_isEventNotUsed h u
  have hwf := wellFormed_of_isEventNotUsed h
  unfold waitEvent
  cases hev : e.events with
  | none => rfl
  | some events =>
      cases hl : events.lookup u with
      | none => simp only [hl]
      | some l =>
          rw [pending_eq hev, hl] at hp
          exact absurd (by rw [hl, show l = [] from hp]) (hwf events u hev)

theorem pending_waitEvent (e : EventBase) (n u v : Nat) :
    (e.waitEvent n u).2.pending v =
      if v = u then (e.pending u).dropWhile (fun ev => decide (ev.1 ≤ (n : Int)))
      else e.pending v := by
  unfold waitEvent
  cases hev : e.events with
  | none =>
      have hp : ∀ w, e.pending w = [] := fun w => by
        unfold pending
        rw [hev]
      simp [hp]
  | some events =>
      cases hl : events.lookup u with
      | none =>
          have hu : e.pending u = [] := by rw [pending_eq hev, hl]; rfl
          by_cases hv : v = u
          · subst hv
            simp [hl, hu]
          · simp [hl, hv]
      | some l =>
          have hu : e.pending u = l := by rw [pending_eq hev, hl]; rfl
          simp only [hl, hu]
          generalize l.dropWhile (fun ev => decide (ev.1 ≤ (n : Int))) = l'
          by_cases hv : v = u
          · subst hv
            rw [if_pos rfl]
            cases l' with
            | nil => rw [pending_eq rfl, AList.lookup_erase]; rfl
            | cons x xs => rw [pending_eq rfl, AList.lookup_insert]; rfl
          · rw [if_neg hv, pending_eq hev]
            cases l' with
            | nil => rw [pending_eq rfl, AList.lookup_erase_ne hv]
            | cons x xs => rw [pending_eq rfl, AList.lookup_insert_ne hv]

theorem waitEvent_wellFormed (hwf : e.WellFormed) (n u : Nat) :
    (e.waitEvent n u).2.WellFormed := by
  unfold waitEvent
  cases hev : e.events with
  | none => exact hwf
  | some events =>
      cases hl : events.lookup u with
      | none =>
          simp only [hl]
          exact hwf
      | some l =>
          simp only [hl]
          generalize l.dropWhile (fun ev => decide (ev.1 ≤ (n : Int))) = l'
          cases l' with
          | nil =>
              intro events' v hev'
              cases hev'
              by_cases hv : v = u
              · rw [hv, AList.lookup_erase]
                nofun
              · rw [AList.lookup_erase_ne hv]
                exact hwf events v hev
          | cons x xs =>
              intro events' v hev'
              cases hev'
              by_cases hv : v = u
              · rw [hv, AList.lookup_insert]
                intro heq
                simp at heq
              · rw [AList.lookup_insert_ne hv]
                exact hwf events v hev

/-! ## `SyncAllEvents` -/

theorem syncAllEvents_of_isEventNotUsed (h : e.isEventNotUsed = true) :
    e.syncAllEvents = (false, e) := by
  unfold syncAllEvents
  rw [if_pos h]

theorem isEventNotUsed_syncAllEvents (e : EventBase) :
    e.syncAllEvents.2.isEventNotUsed = true := by
  unfold syncAllEvents
  split
  · assumption
  · rfl

theorem syncAllEvents_fst (e : EventBase) : e.syncAllEvents.1 = !e.isEventNotUsed := by
  unfold syncAllEvents
  cases h : e.isEventNotUsed <;> rfl

/-! ## Task ids -/

/-- The events of a buffer on which each user stream records its tasks in order. -/
inductive Recorded : EventBase → Prop where
  | new : Recorded {}
  | record {e : EventBase} {t : Int} {u : Nat} (ev : DeviceEvent) (h : Recorded e)
      (hlast : ∀ x ∈ e.pending u, x.1 ≤ t) : Recorded (e.recordEvent t u ev)
  | wait {e : EventBase} (n u : Nat) (h : Recorded e) : Recorded (e.waitEvent n u).2
  | sync {e : EventBase} (h : Recorded e) : Recorded e.syncAllEvents.2

theorem Recorded.wellFormed (h : Recorded e) : e.WellFormed := by
  induction h with
  | new => exact wellFormed_of_isEventNotUsed rfl
  | record ev _ _ ih => exact recordEvent_wellFormed ih _ _ ev
  | wait n u _ ih => exact waitEvent_wellFormed ih n u
  | sync _ _ => exact wellFormed_of_isEventNotUsed (isEventNotUsed_syncAllEvents _)

theorem Recorded.sorted (h : Recorded e) (v : Nat) :
    (e.pending v).Pairwise fun x y => x.1 ≤ y.1 := by
  induction h with
  | new => exact List.Pairwise.nil
  | @record e t u ev _ hlast ih =>
      rw [pending_recordEvent]
      split
      · rename_i hv
        subst hv
        refine List.pairwise_append.mpr ⟨ih, List.pairwise_singleton _ _, fun x hx y hy => ?_⟩
        rw [List.mem_singleton.mp hy]
        exact hlast x hx
      · exact ih
  | wait n u _ ih =>
      rw [pending_waitEvent]
      split
      · rename_i hv
        subst hv
        exact ih.sublist (List.dropWhile_sublist _)
      · exact ih
  | sync _ _ =>
      rw [pending_of_isEventNotUsed (isEventNotUsed_syncAllEvents _)]
      exact List.Pairwise.nil

/-- In a list in order the ids that are popped are those up to `n`. -/
theorem dropWhile_eq_filter {l : List (Int × DeviceEvent)}
    (hs : l.Pairwise fun x y => x.1 ≤ y.1) (n : Int) :
    l.dropWhile (fun x => decide (x.1 ≤ n)) = l.filter fun x => decide (n < x.1) := by
  induction l with
  | nil => rfl
  | cons x l ih =>
      obtain ⟨hx, hl⟩ := List.pairwise_cons.mp hs
      by_cases hn : x.1 ≤ n
      · rw [List.filter_cons, if_neg (by rw [decide_eq_true_eq]; omega), ← ih hl]
        exact List.dropWhile_cons_of_pos (decide_eq_true hn)
      · have hall : ∀ y ∈ x :: l, decide (n < y.1) = true := by
          intro y hy
          rw [decide_eq_true_eq]
          rcases List.mem_cons.mp hy with rfl | hy
          · omega
          · have := hx y hy
            omega
        rw [List.filter_eq_self.mpr hall]
        exact List.dropWhile_cons_of_neg (by rw [decide_eq_true_eq]; exact hn)

/-- What a wait for task `t` on user stream `u` is to leave. -/
structure Waited (e : EventBase) (t : Int) (u : Nat) (e' : EventBase) : Prop where
  pending : ∀ v, e'.pending v =
    if v = u then (e.pending u).filter (fun x => decide (t < x.1)) else e.pending v
  notUsed : e'.isEventNotUsed = true ↔ ∀ v, e'.pending v = []

/-- The conversion to `uint32_t` makes no difference if no pending event is between the two. -/
theorem waitEvent_waited_iff (h : Recorded e) (t : Int) (u : Nat) :
    Waited e t u (e.waitEvent (Pool.toUInt32 t) u).2 ↔
      ∀ x ∈ e.pending u, x.1 ≤ t ↔ x.1 ≤ t % 2 ^ 32 := by
  have hconv : ((Pool.toUInt32 t : Nat) : Int) = t % 2 ^ 32 := by
    rw [Pool.toUInt32]
    omega
  have hpopped : (e.pending u).dropWhile (fun x => decide (x.1 ≤ (Pool.toUInt32 t : Int))) =
      (e.pending u).filter fun x => decide (t % 2 ^ 32 < x.1) := by
    rw [hconv]
    exact dropWhile_eq_filter (h.sorted u) _
  have hwf := waitEvent_wellFormed h.wellFormed (Pool.toUInt32 t) u
  constructor
  · intro hw x hx
    have heq := hw.pending u
    rw [pending_waitEvent, if_pos rfl, if_pos rfl, hpopped] at heq
    have hiff : x ∈ (e.pending u).filter (fun x => decide (t % 2 ^ 32 < x.1)) ↔
        x ∈ (e.pending u).filter (fun x => decide (t < x.1)) := by rw [heq]
    simp only [List.mem_filter, hx, true_and, decide_eq_true_eq] at hiff
    omega
  · intro hids
    refine ⟨fun v => ?_, fun hq v => pending_of_isEventNotUsed hq v,
      fun hall => isEventNotUsed_of_pending hwf hall⟩
    rw [pending_waitEvent]
    by_cases hv : v = u
    · rw [if_pos hv, if_pos hv, hpopped]
      refine List.filter_congr fun x hx => ?_
      have := hids x hx
      rw [decide_eq_decide]
      omega
    · rw [if_neg hv, if_neg hv]

/-- Two events on one stream and one on another, and a wait for the first. -/
theorem waitEvent_waited_first :
    Waited (((({} : EventBase).recordEvent 3 1 10).recordEvent 5 1 11).recordEvent 4 2 12) 3 1
      ((((({} : EventBase).recordEvent 3 1 10).recordEvent 5 1 11).recordEvent 4 2 12).waitEvent
        (Pool.toUInt32 3) 1).2 := by
  refine (waitEvent_waited_iff (.record 12 (.record 11 (.record 10 .new ?_) ?_) ?_) 3 1).mpr ?_
  · decide
  · decide
  · decide
  · decide

/-- A wait for a task of more than 32 bits leaves the event of that task pending. -/
theorem large_task_never_waited :
    ∃ e : EventBase, Recorded e ∧
      ¬Waited e (2 ^ 32) 1 (e.waitEvent (Pool.toUInt32 (2 ^ 32)) 1).2 := by
  refine ⟨({} : EventBase).recordEvent (2 ^ 32) 1 10, .record 10 .new (by decide), fun hw => ?_⟩
  have := hw.pending 1
  revert this
  decide

end EventBase

end Ccbase.Memory
