import Ccbase.Testing.ThreadPoolInv

/-!
# What `SyncRun` returns

A single task runs in the thread of the caller and its status is the result. The
statuses of several tasks are dropped, and without any thread these tasks are not
even run: either way the result is `true`.
-/

namespace Ccbase.Testing

open Ccbase.Lib

/-- What `SyncRun` returns for a list. -/
def resultOf (tasks : List Status) : Bool :=
  match tasks with
  | [task] => task = .success
  | _ => true

/-- In a `SyncRun` of several tasks. -/
def CallerPc.parallel : CallerPc → Bool
  | .resetExit | .growThreads | .spawnThread _ _ | .testContexts | .pollTask _ _ _
  | .lockTask _ _ | .assignTask _ _ | .notifyTask _ _ | .unlockTask _ _ => true
  | _ => false

/-- Where there has to be a thread. -/
def CallerPc.staffed : CallerPc → Bool
  | .spawnThread _ _ | .pollTask _ _ _ | .lockTask _ _ | .assignTask _ _ | .notifyTask _ _
  | .unlockTask _ _ => true
  | _ => false

namespace ThreadPool

variable {s s' : ThreadPool} {w : Nat}

/-! ## What a step does to the calls and their results -/

/-- A step inside a call: no call begins or ends. -/
structure Inside (s s' : ThreadPool) : Prop where
  calls : s'.calls = s.calls
  returned : s'.returned = s.returned
  single : s'.caller = .callSingle → s.caller = .callSingle
  parallel : s'.caller.parallel = true → s.caller.parallel = true
  finished : ∀ t ∈ s.finished, t ∈ s'.finished

theorem Inside.crash (s : ThreadPool) : Inside s s.crash :=
  ⟨rfl, rfl, fun h => h, fun h => h, fun _ ht => ht⟩

theorem Inside.goto (s : ThreadPool) {pc : CallerPc} (hsingle : pc ≠ .callSingle)
    (hpar : s.caller.parallel = true) : Inside s (s.goto pc) :=
  ⟨rfl, rfl, fun h => absurd h hsingle, fun _ => hpar, fun _ ht => ht⟩

theorem Inside.clear (s : ThreadPool) {pc : CallerPc} (hsingle : pc ≠ .callSingle)
    (hpar : pc.parallel = false) : Inside s (s.goto pc) :=
  ⟨rfl, rfl, fun h => absurd h hsingle, fun h => absurd (hpar.symm.trans h) Bool.false_ne_true,
    fun _ ht => ht⟩

theorem inside_setWorker (s : ThreadPool) (w : Nat) (f : Worker → Worker) :
    Inside s (s.setWorker w f) :=
  ⟨rfl, rfl, fun h => h, fun h => h, fun _ ht => ht⟩

theorem runWorker_inside (hs : s.runWorker w = some s') : Inside s s' := by
  unfold runWorker at hs
  obtain ⟨x, -, hs⟩ := Option.bind_eq_some_iff.mp hs
  split at hs
  · cases hs
    exact inside_setWorker ..
  · split at hs
    · split at hs
      · cases hs
        exact inside_setWorker ..
      · cases hs
        exact inside_setWorker ..
    · cases hs
      exact inside_setWorker ..
  · split at hs
    · cases hs
      exact inside_setWorker ..
    · cases hs
  · split at hs
    · cases hs
      exact inside_setWorker ..
    · cases hs
  · cases hs
    exact inside_setWorker ..
  · split at hs
    · cases hs
      exact inside_setWorker ..
    · cases hs
      exact inside_setWorker ..
  · cases hs
    exact inside_setWorker ..
  · cases hs
    exact inside_setWorker ..
  · split at hs
    · cases hs
      exact Inside.crash s
    · cases hs
      exact ⟨rfl, rfl, fun h => h, fun h => h, fun _ ht => ht⟩
  · cases hs
    exact ⟨rfl, rfl, fun h => h, fun h => h, fun _ ht => List.mem_append_left _ ht⟩
  · cases hs
    exact inside_setWorker ..
  · cases hs
  · cases hs

/-- What the caller does next: it stays in its call, or the call ends. -/
inductive CallerStep (s : ThreadPool) : ThreadPool → Prop where
  | inside {s₁ : ThreadPool} (hne : s.caller ≠ .callSingle) (h : Inside s s₁) : CallerStep s s₁
  | single (hc : s.caller = .callSingle) : CallerStep s ({ s with
      started := s.started ++ [(s.current, 0)]
      finished := s.finished ++ [(s.current, 0)] }.ret (s.tasks.head? = some Status.success))
  | parallel (hpar : s.caller.parallel = true) : CallerStep s (s.ret true)

theorem CallerStep.onContext {i : Nat} {f : Nat → Worker → Option ThreadPool}
    (hs : s.onContext i f = some s') (hne : s.caller ≠ .callSingle)
    (hf : ∀ w x, f w x = some s' → CallerStep s s') : CallerStep s s' := by
  unfold ThreadPool.onContext at hs
  split at hs
  · cases hs
    exact .inside hne (Inside.crash s)
  · exact hf _ _ hs

theorem runCaller_step (hs : s.runCaller = some s') : CallerStep s s' := by
  unfold runCaller at hs
  cases hc : s.caller with
  | idle =>
      rw [hc] at hs
      cases hs
  | callSingle =>
      rw [hc] at hs
      cases hs
      exact .single hc
  | resetExit =>
      rw [hc] at hs
      cases hs
      exact .inside (by rw [hc]; decide)
        ⟨rfl, rfl, fun h => (by cases h), fun _ => (by rw [hc]; rfl), fun _ ht => ht⟩
  | growThreads =>
      have hpar : s.caller.parallel = true := by rw [hc]; rfl
      have hne : s.caller ≠ .callSingle := by rw [hc]; decide
      simp only [hc] at hs
      split at hs
      · cases hs
        exact .inside hne ⟨rfl, rfl, fun h => (by cases h), fun _ => hpar, fun _ ht => ht⟩
      · cases hs
        exact .inside hne (Inside.goto s (by decide) hpar)
  | spawnThread i new =>
      have hpar : s.caller.parallel = true := by rw [hc]; rfl
      have hne : s.caller ≠ .callSingle := by rw [hc]; intro h; cases h
      simp only [hc] at hs
      split at hs
      · cases hs
        exact .inside hne ⟨rfl, rfl, fun h => (by cases h), fun _ => hpar, fun _ ht => ht⟩
      · cases hs
        exact .inside hne (Inside.goto s (by decide) hpar)
  | testContexts =>
      have hpar : s.caller.parallel = true := by rw [hc]; rfl
      simp only [hc] at hs
      split at hs
      · cases hs
        exact .parallel hpar
      · cases hs
        exact .inside (by rw [hc]; decide) (Inside.goto s (by decide) hpar)
  | pollTask i j running =>
      have hpar : s.caller.parallel = true := by rw [hc]; rfl
      have hne : s.caller ≠ .callSingle := by rw [hc]; intro h; cases h
      have hgoto : ∀ pc, pc ≠ .callSingle → CallerStep s (s.goto pc) := fun pc h =>
        .inside hne (Inside.goto s h hpar)
      simp only [hc] at hs
      split at hs
      · refine CallerStep.onContext hs hne fun w x hf => ?_
        split at hf
        · cases hf
          exact hgoto _ (fun h => by cases h)
        · split at hf
          · cases hf
            exact hgoto _ (fun h => by cases h)
          · cases hf
            exact hgoto _ (fun h => by cases h)
      · split at hs
        · cases hs
          exact hgoto _ (fun h => by cases h)
        · cases hs
          exact .parallel hpar
  | lockTask i j =>
      have hpar : s.caller.parallel = true := by rw [hc]; rfl
      have hne : s.caller ≠ .callSingle := by rw [hc]; intro h; cases h
      simp only [hc] at hs
      refine CallerStep.onContext hs hne fun w x hf => ?_
      split at hf
      · cases hf
        exact .inside hne ⟨rfl, rfl, fun h => (by cases h), fun _ => hpar, fun _ ht => ht⟩
      · cases hf
  | assignTask i j =>
      have hpar : s.caller.parallel = true := by rw [hc]; rfl
      have hne : s.caller ≠ .callSingle := by rw [hc]; intro h; cases h
      simp only [hc] at hs
      refine CallerStep.onContext hs hne fun w x hf => ?_
      cases hf
      exact .inside hne ⟨rfl, rfl, fun h => (by cases h), fun _ => hpar, fun _ ht => ht⟩
  | notifyTask i j =>
      have hpar : s.caller.parallel = true := by rw [hc]; rfl
      have hne : s.caller ≠ .callSingle := by rw [hc]; intro h; cases h
      simp only [hc] at hs
      refine CallerStep.onContext hs hne fun w x hf => ?_
      cases hf
      exact .inside hne ⟨rfl, rfl, fun h => (by cases h), fun _ => hpar, fun _ ht => ht⟩
  | unlockTask i j =>
      have hpar : s.caller.parallel = true := by rw [hc]; rfl
      have hne : s.caller ≠ .callSingle := by rw [hc]; intro h; cases h
      simp only [hc] at hs
      refine CallerStep.onContext hs hne fun w x hf => ?_
      cases hf
      exact .inside hne ⟨rfl, rfl, fun h => (by cases h), fun _ => hpar, fun _ ht => ht⟩
  | testExit =>
      have hne : s.caller ≠ .callSingle := by rw [hc]; decide
      simp only [hc] at hs
      cases hs
      by_cases hexit : s.exitRun = true
      · rw [if_pos hexit]
        exact .inside hne (Inside.clear s (by decide) rfl)
      · rw [if_neg hexit]
        exact .inside hne (Inside.clear s (by decide) rfl)
  | setExit =>
      rw [hc] at hs
      cases hs
      exact .inside (by rw [hc]; decide)
        ⟨rfl, rfl, fun h => (by cases h), fun h => (by cases h), fun _ ht => ht⟩
  | notifyAll i =>
      have hne : s.caller ≠ .callSingle := by rw [hc]; intro h; cases h
      simp only [hc] at hs
      split at hs
      · refine CallerStep.onContext hs hne fun w x hf => ?_
        cases hf
        exact .inside hne ⟨rfl, rfl, fun h => (by cases h), fun h => (by cases h), fun _ ht => ht⟩
      · cases hs
        exact .inside hne (Inside.clear s (by decide) rfl)
  | joinThread i =>
      have hne : s.caller ≠ .callSingle := by rw [hc]; intro h; cases h
      simp only [hc] at hs
      split at hs
      · cases hs
        exact .inside hne ⟨rfl, rfl, fun h => (by cases h), fun h => (by cases h), fun _ ht => ht⟩
      · split at hs
        · cases hs
          exact .inside hne (Inside.clear s (fun h => by cases h) rfl)
        · cases hs

/-! ## The results -/

/-- What is known about the calls and what they have returned. -/
structure Results (s : ThreadPool) : Prop where
  single : s.caller = .callSingle → ∃ task, s.tasks = [task]
  parallel : s.caller.parallel = true → 2 ≤ s.tasks.length
  returned : ∀ r ∈ s.returned, ∃ tasks, s.calls[r.1]? = some tasks ∧ r.2 = resultOf tasks ∧
    (tasks.length = 1 → (r.1, 0) ∈ s.finished)

theorem tasks_congr (h : s'.calls = s.calls) : s'.tasks = s.tasks := by
  unfold tasks
  rw [h]

theorem Results.inside (h : Results s) (hs : Inside s s') : Results s' where
  single := fun hc => by
    rw [tasks_congr hs.calls]
    exact h.single (hs.single hc)
  parallel := fun hc => by
    rw [tasks_congr hs.calls]
    exact h.parallel (hs.parallel hc)
  returned := fun r hr => by
    rw [hs.returned] at hr
    obtain ⟨tasks, htasks, hok, hfin⟩ := h.returned r hr
    exact ⟨tasks, by rw [hs.calls, htasks], hok, fun hlen => hs.finished _ (hfin hlen)⟩

/-- The result of the present call goes to the others. -/
theorem Results.ret (h : Results s) {ok : Bool} (hok : ok = resultOf s.tasks)
    (hpos : 0 < s.tasks.length) (hfin : s.tasks.length = 1 → (s.current, 0) ∈ s.finished) :
    Results (s.ret ok) where
  single := fun hc => by cases hc
  parallel := fun hc => by cases hc
  returned := fun r hr => by
    rcases List.mem_append.mp hr with hr | hr
    · exact h.returned r hr
    · rw [List.mem_singleton.mp hr]
      exact ⟨s.tasks, tasks_eq (calls_ne_nil hpos), hok, hfin⟩

theorem resultOf_of_two_le {tasks : List Status} (h : 2 ≤ tasks.length) :
    resultOf tasks = true := by
  match tasks, h with
  | _ :: _ :: _, _ => rfl

theorem Results.caller (h : Results s) (hs : s.runCaller = some s') : Results s' := by
  cases runCaller_step hs with
  | inside _ hin => exact h.inside hin
  | single hc =>
      obtain ⟨task, htask⟩ := h.single hc
      have hran : Results { s with
          started := s.started ++ [(s.current, 0)]
          finished := s.finished ++ [(s.current, 0)] } :=
        h.inside ⟨rfl, rfl, fun h => h, fun h => h, fun _ ht => List.mem_append_left _ ht⟩
      refine hran.ret ?_ ?_ ?_
      · show decide (s.tasks.head? = some .success) = resultOf s.tasks
        rw [htask]
        cases task with
        | fail => rfl
        | success => rfl
      · show 0 < s.tasks.length
        rw [htask]
        exact Nat.one_pos
      · exact fun _ => List.mem_append_right _ (List.mem_singleton.mpr rfl)
  | parallel hpar =>
      have htwo := h.parallel hpar
      exact h.ret (resultOf_of_two_le htwo).symm (by omega) (by omega)

/-- A call begins, and an empty one also ends. -/
theorem Results.call (h : Results s) (tasks : List Status) : Results (s.callSyncRun tasks) := by
  have htasks : ({ s with calls := s.calls ++ [tasks] } : ThreadPool).tasks = tasks := by
    show ((s.calls ++ [tasks]).getLast?).getD [] = tasks
    rw [List.getLast?_concat]
    rfl
  have hold : ∀ r ∈ s.returned, ∃ tasks', (s.calls ++ [tasks])[r.1]? = some tasks' ∧
      r.2 = resultOf tasks' ∧ (tasks'.length = 1 → (r.1, 0) ∈ s.finished) := by
    intro r hr
    obtain ⟨tasks', htasks', hrest⟩ := h.returned r hr
    refine ⟨tasks', ?_, hrest⟩
    rw [List.getElem?_append_left (List.getElem?_eq_some_iff.mp htasks').1, htasks']
  unfold callSyncRun
  match tasks, htasks, hold with
  | [], _, hold =>
      refine ⟨fun hc => (by cases hc), fun hc => (by cases hc), fun r hr => ?_⟩
      rcases List.mem_append.mp hr with hr | hr
      · exact hold r hr
      · rw [List.mem_singleton.mp hr]
        refine ⟨[], ?_, rfl, fun h => (by cases h)⟩
        show (s.calls ++ [[]])[(s.calls ++ [[]]).length - 1]? = some []
        rw [List.length_append, List.length_singleton, Nat.add_sub_cancel,
          List.getElem?_concat_length]
  | [task], htasks, hold => exact ⟨fun _ => ⟨task, htasks⟩, fun hc => (by cases hc), hold⟩
  | task :: task' :: rest, htasks, hold =>
      refine ⟨fun hc => (by cases hc), fun _ => ?_, hold⟩
      show 2 ≤ ({ s with calls := s.calls ++ [task :: task' :: rest] } : ThreadPool).tasks.length
      rw [htasks]
      simp

theorem Results.step {e : Event} (h : Results s) (hs : Step s e s') : Results s' := by
  unfold Step ThreadPool.step at hs
  cases e with
  | syncRun tasks =>
      simp only at hs
      split at hs
      · cases hs
        exact h.call tasks
      · cases hs
  | clearThreadPool =>
      simp only at hs
      split at hs
      · cases hs
        exact h.inside (Inside.clear s (by decide) rfl)
      · cases hs
  | caller => exact h.caller hs
  | worker w => exact h.inside (runWorker_inside hs)
  | spurious w =>
      cases hs
      exact h.inside (inside_setWorker ..)

theorem run_results {maxThreadNum : Nat} {es : List Event}
    (h : Run Step (init maxThreadNum) es s) : Results s :=
  h.state_inv (I := Results)
    ⟨fun hc => (by cases hc), fun hc => (by cases hc), fun r hr => (by cases hr)⟩
    fun _ _ _ => Results.step

/-! ## Without threads -/

/-- `hardware_concurrency` has reported nothing: there are no workers, and only the
caller runs tasks. -/
structure Deserted (s : ThreadPool) : Prop where
  zero : s.maxThreadNum = 0
  workers : ∀ w, s.workers.get w = none
  contexts : s.contexts = []
  unstaffed : s.caller.staffed = false
  finished : ∀ t ∈ s.finished, ∃ task, s.calls[t.1]? = some [task]

theorem Deserted.get_setWorker (h : Deserted s) (w : Nat) (f : Worker → Worker) (v : Nat) :
    (s.setWorker w f).workers.get v = none := by
  rw [ThreadPool.get_setWorker, h.workers, h.workers, Option.map_none, ite_self]

theorem Deserted.goto (h : Deserted s) {pc : CallerPc} (hpc : pc.staffed = false) :
    Deserted (s.goto pc) :=
  ⟨h.zero, h.workers, h.contexts, hpc, h.finished⟩

theorem Deserted.caller (h : Deserted s) (hres : Results s) (hs : s.runCaller = some s') :
    Deserted s' := by
  have hplace := h.unstaffed
  unfold runCaller at hs
  cases hc : s.caller with
  | idle =>
      rw [hc] at hs
      cases hs
  | callSingle =>
      obtain ⟨task, htask⟩ := hres.single hc
      rw [hc] at hs
      cases hs
      refine ⟨h.zero, h.workers, h.contexts, rfl, fun t ht => ?_⟩
      rcases List.mem_append.mp ht with ht | ht
      · exact h.finished t ht
      · rw [List.mem_singleton.mp ht]
        refine ⟨task, ?_⟩
        show s.calls[s.current]? = some [task]
        rw [tasks_eq (calls_ne_nil (by rw [htask]; exact Nat.one_pos)), htask]
  | resetExit =>
      rw [hc] at hs
      cases hs
      exact ⟨h.zero, h.workers, h.contexts, rfl, h.finished⟩
  | growThreads =>
      simp only [hc, h.zero] at hs
      rw [if_neg (by omega)] at hs
      cases hs
      exact h.goto rfl
  | testContexts =>
      simp only [hc, h.contexts, List.isEmpty_nil, if_pos] at hs
      cases hs
      exact ⟨h.zero, h.workers, h.contexts, rfl, h.finished⟩
  | spawnThread _ _ | pollTask _ _ _ | lockTask _ _ | assignTask _ _ | notifyTask _ _
  | unlockTask _ _ =>
      rw [hc] at hplace
      cases hplace
  | testExit =>
      simp only [hc] at hs
      cases hs
      by_cases hexit : s.exitRun = true
      · rw [if_pos hexit]
        exact h.goto rfl
      · rw [if_neg hexit]
        exact h.goto rfl
  | setExit =>
      rw [hc] at hs
      cases hs
      exact ⟨h.zero, h.workers, h.contexts, rfl, h.finished⟩
  | notifyAll i =>
      simp only [hc, h.contexts, List.length_nil] at hs
      rw [if_neg (Nat.not_lt_zero i)] at hs
      cases hs
      exact h.goto rfl
  | joinThread i =>
      simp only [hc] at hs
      split at hs
      · cases hs
        exact ⟨h.zero, h.workers, h.contexts, rfl, h.finished⟩
      · split at hs
        · cases hs
          exact h.goto rfl
        · cases hs

theorem Deserted.call (h : Deserted s) (tasks : List Status) :
    Deserted (s.callSyncRun tasks) := by
  have hfin : ∀ t ∈ s.finished, ∃ task, (s.calls ++ [tasks])[t.1]? = some [task] := by
    intro t ht
    obtain ⟨task, htask⟩ := h.finished t ht
    refine ⟨task, ?_⟩
    rw [List.getElem?_append_left (List.getElem?_eq_some_iff.mp htask).1, htask]
  unfold callSyncRun
  match tasks, hfin with
  | [], hfin => exact ⟨h.zero, h.workers, h.contexts, rfl, hfin⟩
  | [_], hfin => exact ⟨h.zero, h.workers, h.contexts, rfl, hfin⟩
  | _ :: _ :: _, hfin => exact ⟨h.zero, h.workers, h.contexts, rfl, hfin⟩

theorem Deserted.step {e : Event} (h : Deserted s) (hres : Results s) (hs : Step s e s') :
    Deserted s' := by
  unfold Step ThreadPool.step at hs
  cases e with
  | syncRun tasks =>
      simp only at hs
      split at hs
      · cases hs
        exact h.call tasks
      · cases hs
  | clearThreadPool =>
      simp only at hs
      split at hs
      · cases hs
        exact h.goto rfl
      · cases hs
  | caller => exact h.caller hres hs
  | worker w =>
      simp only [runWorker, h.workers] at hs
      cases hs
  | spurious w =>
      cases hs
      exact ⟨h.zero, h.get_setWorker w wake, h.contexts, h.unstaffed, h.finished⟩

theorem run_deserted {es : List Event} (h : Run Step (init 0) es s) : Deserted s := by
  have hboth : Results s ∧ Deserted s := by
    refine h.state_inv (I := fun s => Results s ∧ Deserted s) ⟨run_results .nil, ?_⟩ ?_
    · exact ⟨rfl, fun _ => rfl, rfl, rfl, fun t ht => (by cases ht)⟩
    · exact fun _ _ _ ⟨hres, hdes⟩ hs => ⟨hres.step hs, hdes.step hres hs⟩
  exact hboth.2

/-! ## When the result says what has happened -/

/-- Every task of a call has been executed and has returned `SUCCESS`. -/
def Succeeded (s : ThreadPool) (k : Nat) (tasks : List Status) : Prop :=
  (∀ i < tasks.length, (k, i) ∈ s.finished) ∧ ∀ task ∈ tasks, task = .success

theorem finished_of_returned {maxThreadNum : Nat} (hpos : 0 < maxThreadNum) {es : List Event}
    (h : Run Step (init maxThreadNum) es s) {k : Nat} {ok : Bool} {tasks : List Status}
    (hret : (k, ok) ∈ s.returned) (htasks : s.calls[k]? = some tasks) :
    ∀ i < tasks.length, (k, i) ∈ s.finished := by
  intro i hi
  have hcount := ((run_inv hpos h).count_returned hret htasks i).2
  rw [if_pos hi] at hcount
  exact List.count_pos_iff.mp (by omega)

/-- The result of `SyncRun` is right for lists of at most one task, and where there is a
thread and no task fails. -/
theorem syncRun_result_iff {maxThreadNum : Nat} {es : List Event} {s : ThreadPool}
    (h : Run Step (init maxThreadNum) es s) {k : Nat} {ok : Bool} {tasks : List Status}
    (hret : (k, ok) ∈ s.returned) (htasks : s.calls[k]? = some tasks) :
    (ok = true ↔ Succeeded s k tasks) ↔
      tasks.length ≤ 1 ∨ (0 < maxThreadNum ∧ ∀ task ∈ tasks, task = .success) := by
  obtain ⟨tasks', htasks', hok, hsingle⟩ := (run_results h).returned _ hret
  obtain rfl : tasks = tasks' := Option.some.inj (htasks.symm.trans htasks')
  simp only at hok hsingle
  match tasks, htasks, hok, hsingle with
  | [], _, hok, _ =>
      refine iff_of_true ?_ (.inl (Nat.zero_le 1))
      exact iff_of_true hok
        ⟨fun i hi => absurd hi (Nat.not_lt_zero i), fun task ht => absurd ht List.not_mem_nil⟩
  | [task], _, hok, hsingle =>
      refine iff_of_true ?_ (.inl (Nat.le_refl 1))
      have hran : ∀ i < [task].length, (k, i) ∈ s.finished := by
        intro i hi
        obtain rfl : i = 0 := Nat.lt_one_iff.mp hi
        exact hsingle rfl
      rw [hok]
      exact ⟨fun h => ⟨hran, fun t ht => (List.mem_singleton.mp ht).trans (of_decide_eq_true h)⟩,
        fun h => decide_eq_true (h.2 task List.mem_cons_self)⟩
  | a :: b :: rest, htasks, hok, _ =>
      have hlong : ¬ (a :: b :: rest).length ≤ 1 := by simp
      rw [hok]
      by_cases hpos : 0 < maxThreadNum
      · have hran := finished_of_returned hpos h hret htasks
        exact ⟨fun hiff => .inr ⟨hpos, (hiff.mp rfl).2⟩,
          fun hcond => iff_of_true rfl ⟨hran, (hcond.resolve_left hlong).2⟩⟩
      · obtain rfl : maxThreadNum = 0 := by omega
        refine iff_of_false (fun hiff => ?_) fun hcond => ?_
        · obtain ⟨task, htask⟩ :=
            (run_deserted h).finished (k, 0) ((hiff.mp rfl).1 0 (Nat.zero_lt_succ _))
          exact absurd (htasks.symm.trans htask) (by simp)
        · exact absurd (hcond.resolve_left hlong).1 (Nat.lt_irrefl 0)

theorem syncRun_result_iff_two : ∃ s, Run Step (init 1) twoTasks s ∧
    ((true = true ↔ Succeeded s 0 [.success, .fail]) ↔ [Status.success, .fail].length ≤ 1 ∨
      (0 < 1 ∧ ∀ task ∈ [Status.success, .fail], task = .success)) := by
  obtain ⟨s, hrun, hret, hcalls⟩ := twoTasks_run
  have hmem : (0, true) ∈ s.returned := by
    rw [hret]
    exact .head _
  exact ⟨s, hrun, syncRun_result_iff hrun hmem (by rw [hcalls]; rfl)⟩

/-- The second of two tasks fails, and the result is `true`. -/
theorem failed_task_ignored : ¬ ∀ (maxThreadNum : Nat) (es : List Event) (s : ThreadPool),
    Run Step (init maxThreadNum) es s → ∀ (k : Nat) (ok : Bool) (tasks : List Status),
      (k, ok) ∈ s.returned → s.calls[k]? = some tasks → (ok = true ↔ Succeeded s k tasks) := by
  intro hclaim
  obtain ⟨s, hrun, hret, hcalls⟩ := twoTasks_run
  have hiff := hclaim 1 twoTasks s hrun 0 true [.success, .fail] (by rw [hret]; exact .head _)
    (by rw [hcalls]; rfl)
  have hfail := (hiff.mp rfl).2 .fail (.tail _ (.head _))
  cases hfail

end ThreadPool

end Ccbase.Testing
