import Ccbase.Libc.ConcurrentQueueInv
import Mathlib.Algebra.BigOperators.Fin

/-!
# Wake-ups of a `ConcurrentQueue`

`concurrent_queue_enqueue` signals after it has released `tail_mutex` and without
`head_mutex`. A dequeuer that has found the list empty and does not wait yet misses
the signal, and then waits although there is a value.

Unless that happens, every value in the list has a thread that will see to it: an
enqueuer that has yet to signal, a thread that was woken, or a dequeuer that has yet
to test or to take.
-/

namespace Ccbase.Libc

open Ccbase.Lib

variable {n : Nat} {D : Type}

namespace Pc

/-- Between the test and the wait. -/
def isWait : Pc D → Bool
  | .wait => true
  | _ => false

/-- A thread that waits or is about to. -/
def waits (p : Pc D) : Bool := p.isWait || p.isWaiting

/-- One for a thread that will signal, test or take. -/
def help : Pc D → Nat
  | .writeTail .. | .unlockTail _ | .signal _ => 1
  | .lockHead _ | .readHead _ | .testNext .. | .woken => 1
  | .readDummy _ | .readNext .. | .readData .. | .writeHead .. => 1
  | _ => 0

end Pc

namespace ConcurrentQueue

variable {q q₁ : ConcurrentQueue n D} {c : List Nat} {t : Fin n}

/-- The threads that will signal, test or take. -/
def helpers (q : ConcurrentQueue n D) : Nat := ∑ u, (q.pc u).help

/-- While a thread waits or is about to, no value is without a helper. -/
def Covered (q : ConcurrentQueue n D) : Prop :=
  (∃ u, (q.pc u).waits = true) → q.enqueued.length ≤ q.dequeued.length + q.helpers

/-- No call of `concurrent_queue_enqueue` goes on, the list is not empty, and every call of
`concurrent_queue_dequeue` that has not ended waits. -/
def Stuck (q : ConcurrentQueue n D) : Prop :=
  (∀ u, (q.pc u).isWaiting = true ∨ q.pc u = .idle) ∧ (∃ u, (q.pc u).isWaiting = true) ∧
    q.next q.head ≠ none

/-- A signal that wakes nobody is not sent while a dequeuer is between its test and its
wait. -/
def Meets (q : ConcurrentQueue n D) : Event n D → Prop
  | .signal _ none => ∀ u, (q.pc u).isWait = false
  | _ => True

theorem helpers_goto (q : ConcurrentQueue n D) (t : Fin n) (p : Pc D) :
    (q.goto t p).helpers + (q.pc t).help = q.helpers + p.help := by
  have hupdate : (fun u => ((q.goto t p).pc u).help) =
      Function.update (fun u => (q.pc u).help) t p.help := by
    funext u
    by_cases hu : u = t
    · rw [hu, Function.update_self, goto_pc_self]
    · rw [Function.update_of_ne hu, goto_pc_of_ne q hu]
  rw [helpers, helpers, hupdate, Finset.sum_update_of_mem (Finset.mem_univ t),
    Finset.sum_eq_add_sum_sdiff_singleton_of_mem (Finset.mem_univ t) fun u => (q.pc u).help]
  omega

/-- Thread `t` goes on to `p`, and there is a helper more for every value more. -/
theorem Covered.goto (h : Covered q) {p : Pc D} (hwaits : p.waits = true → (q.pc t).waits = true)
    (hcount : q₁.enqueued.length + q.dequeued.length + (q.pc t).help ≤
      q.enqueued.length + q₁.dequeued.length + p.help)
    (hpc : q₁.pc = q.pc) : Covered (q₁.goto t p) := by
  rintro ⟨u, hu⟩
  have hold : ∃ u, (q.pc u).waits = true := by
    by_cases hut : u = t
    · rw [hut, goto_pc_self] at hu
      exact ⟨t, hwaits hu⟩
    · rw [goto_pc_of_ne q₁ hut, hpc] at hu
      exact ⟨u, hu⟩
  have hlength := h hold
  have hhelpers := q₁.helpers_goto t p
  have hsame : q₁.helpers = q.helpers := by rw [helpers, helpers, hpc]
  rw [hpc] at hhelpers
  show q₁.enqueued.length ≤ q₁.dequeued.length + (q₁.goto t p).helpers
  omega

theorem Covered.of_le (h : q.enqueued.length ≤ q.dequeued.length) : Covered q := by
  intro _
  omega

/-- An empty list has all its values taken. -/
theorem Inv.length_le (hinv : Inv q c) (hnext : q.next q.head = none) :
    q.enqueued.length ≤ q.dequeued.length := by
  obtain ⟨rest, hrest, hvalues⟩ := hinv.list.values
  have hc : c = [] := hinv.list.links.unique hnext
  rw [hc] at hvalues
  have hnil : rest = [] := by simpa using hvalues.symm
  rw [hrest, hnil, List.append_nil]

theorem Covered.run (h : Covered q) (hinv : Inv q c) (hstep : q.run t = some q₁) :
    Covered q₁ := by
  have hlocal := hinv.locals t
  rw [ConcurrentQueue.run] at hstep
  cases hpc : q.pc t with
  | idle | signal | waiting =>
      rw [hpc] at hstep
      cases hstep
  | lockTail node v =>
      rw [hpc] at hstep
      dsimp only at hstep
      split at hstep
      · cases hstep
        exact h.goto (by simp [Pc.waits, Pc.isWait, Pc.isWaiting]) (by rw [hpc]; simp [Pc.help]) rfl
      · cases hstep
  | lockHead b | woken =>
      rw [hpc] at hstep
      dsimp only at hstep
      split at hstep
      · cases hstep
        exact h.goto (by simp [Pc.waits, Pc.isWait, Pc.isWaiting]) (by rw [hpc]; simp [Pc.help]) rfl
      · cases hstep
  | readTail | readHead | writeTail | unlockTail | unlockEmpty | readDummy | unlockHead =>
      rw [hpc] at hstep
      cases hstep
      exact h.goto (by simp [Pc.waits, Pc.isWait, Pc.isWaiting]) (by rw [hpc]; simp [Pc.help]) rfl
  | wait =>
      rw [hpc] at hstep
      cases hstep
      exact h.goto (by rw [hpc]; simp [Pc.waits, Pc.isWait]) (by rw [hpc]; simp [Pc.help]) rfl
  | writeHead b dummy r v =>
      rw [hpc] at hstep
      cases hstep
      refine h.goto (by simp [Pc.waits, Pc.isWait, Pc.isWaiting]) ?_ rfl
      rw [hpc]
      simp only [Pc.help, List.length_append, List.length_singleton]
      omega
  | writeNext node v tail =>
      rw [hpc] at hstep
      dsimp only at hstep
      split at hstep
      · cases hstep
        exact h
      · cases hstep
        refine h.goto (by simp [Pc.waits, Pc.isWait, Pc.isWaiting]) ?_ rfl
        rw [hpc]
        simp only [Pc.help, List.length_append, List.length_singleton]
        omega
  | testNext b head =>
      rw [hpc] at hstep hlocal
      obtain ⟨-, rfl⟩ := hlocal
      dsimp only at hstep
      split at hstep
      · cases hstep
        exact h
      · rename_i x hx
        split at hstep
        · rename_i hnext
          cases hstep
          -- the list is empty, so there is nothing to wake a thread for
          refine Covered.of_le (hinv.length_le ?_)
          rw [next, hx]
          exact hnext
        · cases hstep
          exact h.goto (by simp [Pc.waits, Pc.isWait, Pc.isWaiting])
            (by rw [hpc]; simp [Pc.help]) rfl
  | readNext b dummy =>
      rw [hpc] at hstep
      dsimp only at hstep
      split at hstep
      · cases hstep
        exact h
      · cases hstep
        exact h.goto (by simp [Pc.waits, Pc.isWait, Pc.isWaiting])
          (by rw [hpc]; simp [Pc.help]) rfl
  | readData b dummy r =>
      rw [hpc] at hstep
      dsimp only at hstep
      split at hstep
      · cases hstep
        exact h
      · cases hstep
        exact h.goto (by simp [Pc.waits, Pc.isWait, Pc.isWaiting])
          (by rw [hpc]; simp [Pc.help]) rfl
  | freeDummy b dummy v =>
      rw [hpc] at hstep
      dsimp only at hstep
      split at hstep
      · cases hstep
        exact h
      · cases hstep
        exact h.goto (by simp [Pc.waits, Pc.isWait, Pc.isWaiting])
          (by rw [hpc]; simp [Pc.help]) rfl

theorem Covered.step {e : Event n D} (h : Covered q) (hinv : Inv q c) (hmeets : q.Meets e)
    (hstep : q.step e = some q₁) : Covered q₁ := by
  cases e with
  | enqueue t v | dequeue t | tryDequeue t =>
      rw [ConcurrentQueue.step] at hstep
      split at hstep
      · rename_i hpc
        cases hstep
        exact h.goto (by simp [Pc.waits, Pc.isWait, Pc.isWaiting]) (by rw [hpc]; simp [Pc.help]) rfl
      · cases hstep
  | run t => exact h.run hinv hstep
  | signal t wakes =>
      cases hpc : q.pc t with
      | signal =>
          simp only [ConcurrentQueue.step, hpc] at hstep
          cases wakes with
          | some u =>
              dsimp only at hstep
              split at hstep
              · rename_i hwait
                cases hstep
                have hne : t ≠ u := by
                  rintro rfl
                  rw [hpc] at hwait
                  cases hwait
                -- the signal leaves one helper and makes another
                rintro ⟨w, hw⟩
                have hlength := h ⟨u, by rw [Pc.waits, hwait, Bool.or_true]⟩
                have hwoken := q.helpers_goto u .woken
                have hidle := (q.goto u .woken).helpers_goto t .idle
                have hhelp : (q.pc u).help = 0 := by
                  cases hpu : q.pc u <;> rw [hpu] at hwait <;> first | rfl | cases hwait
                rw [hhelp] at hwoken
                rw [q.goto_pc_of_ne hne, hpc] at hidle
                simp only [Pc.help] at hwoken hidle
                show q.enqueued.length ≤ q.dequeued.length +
                  ((q.goto u .woken).goto t .idle).helpers
                omega
              · cases hstep
          | none =>
              dsimp only at hstep
              split at hstep
              · rename_i hnobody
                cases hstep
                -- nobody waits, and by the condition nobody is about to
                rintro ⟨w, hw⟩
                rw [finish_pc] at hw
                by_cases hwt : w = t
                · rw [hwt, goto_pc_self] at hw
                  cases hw
                · rw [q.goto_pc_of_ne hwt, Pc.waits, hnobody w, hmeets w] at hw
                  cases hw
              · cases hstep
      | _ =>
          simp only [ConcurrentQueue.step, hpc] at hstep
          cases hstep
  | spurious t =>
      rw [ConcurrentQueue.step] at hstep
      split at hstep
      · rename_i hwait
        cases hstep
        refine h.goto (by simp [Pc.waits, Pc.isWait, Pc.isWaiting]) ?_ rfl
        have hhelp : (q.pc t).help = 0 := by
          cases hpu : q.pc t <;> rw [hpu] at hwait <;> first | rfl | cases hwait
        rw [hhelp]
        simp [Pc.help]
      · cases hstep

/-- A covered queue is not stuck. -/
theorem Covered.not_stuck (h : Covered q) (hinv : Inv q c) : ¬ q.Stuck := by
  rintro ⟨hall, ⟨u, hu⟩, hnonempty⟩
  have hlength := h ⟨u, by rw [Pc.waits, hu, Bool.or_true]⟩
  have hhelpers : q.helpers = 0 := by
    refine Finset.sum_eq_zero fun v _ => ?_
    rcases hall v with hv | hv
    · cases hpv : q.pc v <;> rw [hpv] at hv <;> first | rfl | cases hv
    · rw [hv]
      rfl
  obtain ⟨rest, hrest, hvalues⟩ := hinv.list.values
  have hrestLength : rest.length = 0 := by
    rw [hrest, List.length_append] at hlength
    omega
  have hc : c = [] := by
    have hmap := congrArg List.length hvalues
    rw [List.length_map, List.length_map, hrestLength] at hmap
    exact List.eq_nil_of_length_eq_zero hmap
  have hlinks := hinv.list.links
  rw [hc] at hlinks
  exact hnonempty hlinks

end ConcurrentQueue

/-- No run gets stuck in which every signal that finds nobody waiting is sent while no
dequeuer is between its test and its wait. -/
theorem concurrentQueue_not_stuck {null : D} {es : List (Event n D)} {q : ConcurrentQueue n D}
    (h : Run (fun q e q' => q.step e = some q' ∧ q.Meets e) (ConcurrentQueue.init n null) es q) :
    ¬ q.Stuck := by
  have hrun : (∃ c, ConcurrentQueue.Inv q c) ∧ q.Covered := by
    refine h.state_inv (I := fun q => (∃ c, ConcurrentQueue.Inv q c) ∧ q.Covered)
      ⟨⟨[], ConcurrentQueue.init_inv n null⟩, ConcurrentQueue.Covered.of_le (Nat.le_refl 0)⟩ ?_
    rintro q e q' ⟨⟨c, hinv⟩, hcovered⟩ ⟨hstep, hmeets⟩
    exact ⟨hinv.step hstep, hcovered.step hinv hmeets hstep⟩
  obtain ⟨⟨c, hinv⟩, hcovered⟩ := hrun
  exact hcovered.not_stuck hinv

instance decidableStuck [DecidableEq D] (q : ConcurrentQueue n D) : Decidable q.Stuck :=
  inferInstanceAs (Decidable (_ ∧ _ ∧ _))

instance decidableMeetsEvent (q : ConcurrentQueue n D) (e : Event n D) :
    Decidable (q.Meets e) :=
  match e with
  | .signal _ none => inferInstanceAs (Decidable (∀ u, (q.pc u).isWait = false))
  | .signal _ (some _) => inferInstanceAs (Decidable True)
  | .enqueue .. => inferInstanceAs (Decidable True)
  | .dequeue _ => inferInstanceAs (Decidable True)
  | .tryDequeue _ => inferInstanceAs (Decidable True)
  | .run _ => inferInstanceAs (Decidable True)
  | .spurious _ => inferInstanceAs (Decidable True)

/-- A dequeuer waits, and is woken by the enqueuer. -/
theorem concurrentQueue_not_stuck_woken :
    ∃ q : ConcurrentQueue 2 Nat,
      Run (fun q e q' => q.step e = some q' ∧ q.Meets e) (ConcurrentQueue.init 2 0)
        [.dequeue 0, .run 0, .run 0, .run 0, .run 0, .enqueue 1 7, .run 1, .run 1, .run 1, .run 1,
          .run 1, .signal 1 (some 0)] q ∧ ¬ q.Stuck := by
  have hexec : (Run.exec (fun (q : ConcurrentQueue 2 Nat) e => q.step e)
      (fun q e => q.Meets e) (ConcurrentQueue.init 2 0)
      [.dequeue 0, .run 0, .run 0, .run 0, .run 0, .enqueue 1 7, .run 1, .run 1, .run 1, .run 1,
        .run 1, .signal 1 (some 0)]).isSome := by decide +kernel
  obtain ⟨q, hq⟩ := Option.isSome_iff_exists.mp hexec
  have hrun := Run.of_exec hq
  exact ⟨q, hrun, concurrentQueue_not_stuck hrun⟩

/-- The signal is sent between the test and the wait of the dequeuer, which then waits for
good. -/
theorem signal_lost :
    ∃ q : ConcurrentQueue 2 Nat,
      Run (fun q e q' => q.step e = some q') (ConcurrentQueue.init 2 0)
        [.dequeue 0, .run 0, .run 0, .run 0, .enqueue 1 7, .run 1, .run 1, .run 1, .run 1, .run 1,
          .signal 1 none, .run 0] q ∧ q.Stuck := by
  have hexec : (Run.exec (fun (q : ConcurrentQueue 2 Nat) e => q.step e) (fun _ _ => True)
      (ConcurrentQueue.init 2 0)
      [.dequeue 0, .run 0, .run 0, .run 0, .enqueue 1 7, .run 1, .run 1, .run 1, .run 1, .run 1,
        .signal 1 none, .run 0]).map (fun q => decide q.Stuck) = some true := by
    decide +kernel
  obtain ⟨q, hq, hstuck⟩ := Option.map_eq_some_iff.mp hexec
  exact ⟨q, (Run.of_exec hq).imp fun _ _ _ h => h.1, of_decide_eq_true hstuck⟩

end Ccbase.Libc
