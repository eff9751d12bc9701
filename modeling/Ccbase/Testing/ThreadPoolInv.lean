import Ccbase.Testing.ThreadPool

/-!
# Every task of `SyncRun` runs once

The tasks of a call that have been handed out are counted by `quota`. Each of them is held by
one worker, whose `pc` says whether the task has been started and finished, or it is held by no
worker any more and has been started and finished once. A pass of the caller that finds nothing
running has seen every pointer null after the last task was handed out.
-/

namespace Ccbase.Testing

open Ccbase.Lib

/-- How often the task of a worker has been started and finished. -/
def WorkerPc.stage : WorkerPc → Nat × Nat
  | .running _ => (1, 0)
  | .clearTask => (1, 1)
  | _ => (0, 0)

/-- A worker that is about to use its task has one. -/
def Worker.Sound (exitRun : Bool) (x : Worker) : Prop :=
  match x.pc with
  | .callTask | .clearTask => x.task.isSome
  | .running task => x.task = some task
  | .unlockMutex | .testExitAgain => x.task.isSome ∨ exitRun = true
  | _ => True

/-- How many tasks of the current call have been handed out; `none` if there is no such call. -/
def CallerPc.handed : CallerPc → Option Nat
  | .callSingle | .resetExit | .growThreads | .spawnThread _ _ | .testContexts => some 0
  | .pollTask _ taskIndex _ | .lockTask _ taskIndex | .assignTask _ taskIndex => some taskIndex
  | .notifyTask _ taskIndex | .unlockTask _ taskIndex => some (taskIndex + 1)
  | .idle | .testExit | .setExit | .notifyAll _ | .joinThread _ => none

/-- `SyncRun` has set `exit_run_` and works with the threads. -/
def CallerPc.armed : CallerPc → Bool
  | .growThreads | .spawnThread _ _ | .testContexts | .pollTask _ _ _ | .lockTask _ _
  | .assignTask _ _ | .notifyTask _ _ | .unlockTask _ _ => true
  | _ => false

/-- The workers are told to return. -/
def CallerPc.clearing : CallerPc → Bool
  | .notifyAll _ | .joinThread _ => true
  | _ => false

namespace ThreadPool

variable {s s' : ThreadPool} {w : Nat} {x : Worker} {t : TaskPtr}

/-- The number of tasks of a call that have been handed out. -/
def quota (s : ThreadPool) (k : Nat) : Nat :=
  match s.calls[k]? with
  | none => 0
  | some tasks => if k + 1 = s.calls.length then s.caller.handed.getD tasks.length else tasks.length

/-- No worker has the task. -/
def Unheld (s : ThreadPool) (t : TaskPtr) : Prop :=
  ∀ w x, s.workers.get w = some x → x.task ≠ some t

/-- The books about the tasks. -/
structure Books (s : ThreadPool) : Prop where
  sound : ∀ w x, s.workers.get w = some x → x.Sound s.exitRun
  held : ∀ w x t, s.workers.get w = some x → x.task = some t →
    t.1 + 1 = s.calls.length ∧ t.2 < s.caller.handed.getD 0 ∧
      s.started.count t = x.pc.stage.1 ∧ s.finished.count t = x.pc.stage.2
  unique : ∀ w w' x x' t, s.workers.get w = some x → s.workers.get w' = some x' →
    x.task = some t → x'.task = some t → w = w'
  unheld : ∀ t, Unheld s t → s.started.count t = (if t.2 < s.quota t.1 then 1 else 0) ∧
    s.finished.count t = (if t.2 < s.quota t.1 then 1 else 0)

/-- The threads of the pool. -/
structure Crew (s : ThreadPool) : Prop where
  made : ∀ w ∈ s.threads, ∃ x, s.workers.get w = some x
  joined : ∀ w x, s.workers.get w = some x → w ∈ s.threads ∨ x.pc = .returned
  exit : s.exitRun = true → s.caller.clearing = false → ∀ w x, s.workers.get w = some x →
    x.pc = .returned
  armed : s.caller.armed = true → s.exitRun = false
  holders : ∀ w x, s.workers.get w = some x → x.task ≠ none →
    ∃ i < s.usedThreadNum, s.contexts[i]? = some (some w)

/-- Every context has its worker. -/
def Manned (s : ThreadPool) : Prop :=
  ∀ o ∈ s.contexts, ∃ w x, o = some w ∧ s.workers.get w = some x

/-- The worker of the context `i` has no task. -/
def Vacant (s : ThreadPool) (i : Nat) : Prop :=
  ∀ w x, s.contexts[i]? = some (some w) → s.workers.get w = some x → x.task = none

/-- What the caller knows where it stands. -/
def Place (s : ThreadPool) : Prop :=
  match s.caller with
  | .idle | .testExit | .setExit | .notifyAll _ =>
      Manned s ∧ (s.threads = [] ∨ s.contexts = s.threads.map some)
  | .joinThread i => Manned s ∧ (s.threads = [] ∨ s.contexts = s.threads.map some) ∧
      ∀ i' < i, ∀ w x, s.threads[i']? = some w → s.workers.get w = some x → x.pc = .returned
  | .callSingle => Manned s ∧ (s.threads = [] ∨ s.contexts = s.threads.map some) ∧
      s.tasks.length = 1
  | .resetExit | .growThreads => Manned s ∧ (s.threads = [] ∨ s.contexts = s.threads.map some) ∧
      2 ≤ s.tasks.length
  | .spawnThread i newThreadNum => s.threads.length = i ∧ i ≤ newThreadNum ∧ 0 < newThreadNum ∧
      s.contexts.length = newThreadNum ∧ s.contexts.take i = s.threads.map some ∧
      2 ≤ s.tasks.length
  | .testContexts => s.threads ≠ [] ∧ s.contexts = s.threads.map some ∧ 2 ≤ s.tasks.length
  | .pollTask i taskIndex running => s.threads ≠ [] ∧ s.contexts = s.threads.map some ∧
      2 ≤ s.tasks.length ∧ taskIndex ≤ s.tasks.length ∧ (running = false →
        (∀ i' < i, Vacant s i') ∧ (0 < i → taskIndex = s.tasks.length))
  | .lockTask i taskIndex | .assignTask i taskIndex => s.threads ≠ [] ∧
      s.contexts = s.threads.map some ∧ 2 ≤ s.tasks.length ∧ taskIndex < s.tasks.length ∧
      i < s.usedThreadNum ∧ Vacant s i
  | .notifyTask i taskIndex | .unlockTask i taskIndex => s.threads ≠ [] ∧
      s.contexts = s.threads.map some ∧ 2 ≤ s.tasks.length ∧ taskIndex < s.tasks.length ∧
      i < s.usedThreadNum

structure Inv (s : ThreadPool) : Prop where
  books : Books s
  crew : Crew s
  place : Place s
  nodup : s.threads.Nodup
  pos : 0 < s.maxThreadNum
  clean : s.fault = false
  returned : ∀ r ∈ s.returned, r.1 < s.calls.length ∧
    (s.caller.handed.isSome → r.1 + 1 < s.calls.length)

/-! ## Steps of a worker -/

/-- A worker moves on without a change of its task. -/
structure Hop (exitRun : Bool) (x x' : Worker) : Prop where
  task : x'.task = x.task
  stage : x'.pc.stage = x.pc.stage
  sound : x'.Sound exitRun
  returned : x.pc = .returned → x'.pc = .returned

theorem get_setWorker (s : ThreadPool) (w : Nat) (f : Worker → Worker) (v : Nat) :
    (s.setWorker w f).workers.get v = if v = w then (s.workers.get w).map f else s.workers.get v :=
  Heap.get_modify ..

/-- What is known about each worker separately survives if it does for the one that moves. -/
theorem forall_setWorker {P : Nat → Worker → Prop} {f : Worker → Worker}
    (h : ∀ v y, s.workers.get v = some y → P v y) (hw : s.workers.get w = some x)
    (hf : P w x → P w (f x)) : ∀ v y, (s.setWorker w f).workers.get v = some y → P v y := by
  intro v y hy
  rw [get_setWorker] at hy
  split at hy
  · rename_i heq
    subst heq
    rw [hw] at hy
    cases hy
    exact hf (h _ _ hw)
  · exact h v y hy

theorem unheld_setWorker {f : Worker → Worker} (hw : s.workers.get w = some x)
    (hf : (f x).task = x.task) : Unheld (s.setWorker w f) t ↔ Unheld s t := by
  constructor
  · intro h v y hy hyt
    by_cases hv : v = w
    · subst hv
      rw [hw] at hy
      cases hy
      refine h v (f x) ?_ (hf.trans hyt)
      rw [get_setWorker, if_pos rfl, hw]
      rfl
    · exact h v y (by rw [get_setWorker, if_neg hv]; exact hy) hyt
  · intro h
    exact forall_setWorker h hw fun hx => by rw [hf]; exact hx

theorem Books.hop {f : Worker → Worker} (h : Books s) (hw : s.workers.get w = some x)
    (hf : Hop s.exitRun x (f x)) : Books (s.setWorker w f) where
  sound := forall_setWorker h.sound hw fun _ => hf.sound
  held := by
    intro v y t hy hyt
    revert t
    refine forall_setWorker (P := fun _ y => ∀ t, y.task = some t → _)
      (fun v y hy t => h.held v y t hy)
      hw (fun hx t ht => ?_) v y hy
    rw [hf.stage]
    exact hx t (hf.task.symm.trans ht)
  unique := by
    have hback : ∀ v y t, (s.setWorker w f).workers.get v = some y → y.task = some t →
        ∃ y₀, s.workers.get v = some y₀ ∧ y₀.task = some t := by
      intro v y t hy
      rw [get_setWorker] at hy
      split at hy
      · rename_i heq
        subst heq
        rw [hw] at hy
        cases hy
        exact fun ht => ⟨x, hw, hf.task.symm.trans ht⟩
      · exact fun ht => ⟨y, hy, ht⟩
    intro v v' y y' t hy hy' ht ht'
    obtain ⟨z, hz, hzt⟩ := hback v y t hy ht
    obtain ⟨z', hz', hzt'⟩ := hback v' y' t hy' ht'
    exact h.unique v v' z z' t hz hz' hzt hzt'
  unheld := fun t ht => h.unheld t ((unheld_setWorker hw hf.task).mp ht)

/-- A worker gives up its task, or does not touch it. -/
structure Move (x x' : Worker) : Prop where
  task : x'.task = x.task ∨ x'.task = none
  returned : x.pc = .returned → x'.pc = .returned

theorem Hop.move {exitRun : Bool} {x' : Worker} (h : Hop exitRun x x') : Move x x' :=
  ⟨.inl h.task, h.returned⟩

theorem Move.none {x' : Worker} (h : Move x x') (hx : x.task = none) : x'.task = none := by
  rcases h.task with heq | heq
  · rw [heq, hx]
  · exact heq

/-- The worker of a place is the same one as before, moved on if it is `w`. -/
theorem Vacant.move {f : Worker → Worker} {i : Nat} (h : Vacant s i)
    (hw : s.workers.get w = some x) (hf : Move x (f x)) : Vacant (s.setWorker w f) i := by
  intro v y hv hy
  exact forall_setWorker (P := fun v y => s.contexts[i]? = some (some v) → y.task = .none)
    (fun v y hy hv => h v y hv hy) hw (fun hx hv => hf.none (hx hv)) v y hy hv

theorem Crew.move {f : Worker → Worker} (h : Crew s) (hw : s.workers.get w = some x)
    (hf : Move x (f x)) : Crew (s.setWorker w f) where
  made := by
    intro v hv
    obtain ⟨y, hy⟩ := h.made v hv
    rw [get_setWorker]
    split
    · exact ⟨f x, by rw [hw]; rfl⟩
    · exact ⟨y, hy⟩
  joined := forall_setWorker h.joined hw fun hx => hx.imp_right hf.returned
  exit := fun hexit hcl => forall_setWorker (h.exit hexit hcl) hw hf.returned
  armed := h.armed
  holders := forall_setWorker h.holders hw fun hx hne => hx fun hnone => hne (hf.none hnone)

theorem Manned.move {f : Worker → Worker} (h : Manned s) (hw : s.workers.get w = some x) :
    Manned (s.setWorker w f) := by
  intro o ho
  obtain ⟨v, y, rfl, hy⟩ := h o ho
  by_cases hv : v = w
  · exact ⟨v, f x, rfl, by rw [get_setWorker, if_pos hv, hw]; rfl⟩
  · exact ⟨v, y, rfl, by rw [get_setWorker, if_neg hv]; exact hy⟩

theorem Place.move {f : Worker → Worker} (h : Place s) (hw : s.workers.get w = some x)
    (hf : Move x (f x)) : Place (s.setWorker w f) := by
  unfold Place at h ⊢
  have hcaller : (s.setWorker w f).caller = s.caller := rfl
  rw [hcaller]
  cases hc : s.caller with
  | idle | testExit | setExit | notifyAll =>
      rw [hc] at h
      exact ⟨h.1.move hw, h.2⟩
  | joinThread i =>
      rw [hc] at h
      refine ⟨h.1.move hw, h.2.1, fun i' hi v y hv hy => ?_⟩
      exact forall_setWorker
        (P := fun v y => s.threads[i']? = some v → y.pc = .returned)
        (fun v y hy hv => h.2.2 i' hi v y hv hy) hw (fun hx hv => hf.returned (hx hv)) v y hy hv
  | callSingle | resetExit | growThreads =>
      rw [hc] at h
      exact ⟨h.1.move hw, h.2⟩
  | spawnThread | testContexts | notifyTask | unlockTask =>
      rw [hc] at h
      exact h
  | pollTask i taskIndex running =>
      rw [hc] at h
      obtain ⟨h1, h2, h3, h4, h5⟩ := h
      exact ⟨h1, h2, h3, h4, fun hr => ⟨fun i' hi => ((h5 hr).1 i' hi).move hw hf, (h5 hr).2⟩⟩
  | lockTask | assignTask =>
      rw [hc] at h
      obtain ⟨h1, h2, h3, h4, h5, h6⟩ := h
      exact ⟨h1, h2, h3, h4, h5, h6.move hw hf⟩

theorem Inv.hop {f : Worker → Worker} (h : Inv s) (hw : s.workers.get w = some x)
    (hf : Hop s.exitRun x (f x)) : Inv (s.setWorker w f) :=
  ⟨h.books.hop hw hf, h.crew.move hw hf.move, h.place.move hw hf.move, h.nodup, h.pos, h.clean,
    h.returned⟩

/-- The tasks of the current call. -/
theorem quota_current {k j : Nat} (hk : k + 1 = s.calls.length) (hj : s.caller.handed = some j) :
    s.quota k = j := by
  unfold quota
  rw [List.getElem?_eq_getElem (by omega)]
  simp only [if_pos hk, hj, Option.getD_some]

theorem Books.lt_quota (h : Books s) (hw : s.workers.get w = some x) (ht : x.task = some t) :
    t.2 < s.quota t.1 := by
  obtain ⟨hk, hlt, -⟩ := h.held w x t hw ht
  cases hj : s.caller.handed with
  | none =>
      rw [hj] at hlt
      exact absurd hlt (Nat.not_lt_zero _)
  | some j =>
      rw [hj] at hlt
      rw [quota_current hk hj]
      exact hlt

/-- Something happens to the task of a worker. -/
theorem Books.record {f : Worker → Worker} {started finished : List TaskPtr} {m n : Nat}
    (h : Books s) (hw : s.workers.get w = some x) (ht : x.task = some t)
    (hf : (f x).task = x.task) (hsound : (f x).Sound s.exitRun)
    (hstarted : ∀ t', started.count t' = s.started.count t' + if t' = t then m else 0)
    (hfinished : ∀ t', finished.count t' = s.finished.count t' + if t' = t then n else 0)
    (hstage : (f x).pc.stage = (x.pc.stage.1 + m, x.pc.stage.2 + n)) :
    Books { s.setWorker w f with started, finished } where
  sound := forall_setWorker h.sound hw fun _ => hsound
  held := by
    intro v y t' hy hyt
    have hy : (s.setWorker w f).workers.get v = some y := hy
    show _ ∧ _ ∧ started.count t' = _ ∧ finished.count t' = _
    rw [hstarted, hfinished]
    rw [get_setWorker] at hy
    split at hy
    · rename_i hv
      rw [hw] at hy
      cases hy
      obtain rfl : t' = t := by
        rw [hf, ht] at hyt
        exact (Option.some.inj hyt).symm
      obtain ⟨h1, h2, h3, h4⟩ := h.held w x t' hw ht
      rw [h3, h4, hstage, if_pos rfl, if_pos rfl]
      exact ⟨h1, h2, rfl, rfl⟩
    · rename_i hv
      have hne : t' ≠ t := by
        rintro rfl
        exact hv (h.unique v w y x t' hy hw hyt ht)
      rw [if_neg hne, if_neg hne]
      exact h.held v y t' hy hyt
  unique := by
    have hback : ∀ v y t', (s.setWorker w f).workers.get v = some y → y.task = some t' →
        ∃ y₀, s.workers.get v = some y₀ ∧ y₀.task = some t' := by
      refine fun v y t' hy => forall_setWorker (P := fun v y => y.task = some t' →
        ∃ y₀, s.workers.get v = some y₀ ∧ y₀.task = some t') (fun v y hy ht => ⟨y, hy, ht⟩) hw
        (fun hx ht' => hx (hf.symm.trans ht')) v y hy
    intro v v' y y' t' hy hy' hyt hyt'
    obtain ⟨z, hz, hzt⟩ := hback v y t' hy hyt
    obtain ⟨z', hz', hzt'⟩ := hback v' y' t' hy' hyt'
    exact h.unique v v' z z' t' hz hz' hzt hzt'
  unheld := by
    intro t' hun
    have hun' : Unheld s t' := (unheld_setWorker hw hf).mp hun
    have hne : t' ≠ t := by
      rintro rfl
      exact hun' w x hw ht
    show started.count t' = _ ∧ finished.count t' = _
    rw [hstarted, hfinished, if_neg hne, if_neg hne]
    exact h.unheld t' hun'

/-- The worker gives up its task, which has been started and finished. -/
theorem Books.clear {f : Worker → Worker} (h : Books s) (hw : s.workers.get w = some x)
    (ht : x.task = some t) (hpc : x.pc = .clearTask) (hf : (f x).task = none)
    (hsound : (f x).Sound s.exitRun) : Books (s.setWorker w f) where
  sound := forall_setWorker h.sound hw fun _ => hsound
  held := by
    intro v y t' hy hyt
    rw [get_setWorker] at hy
    split at hy
    · rw [hw] at hy
      cases hy
      rw [hf] at hyt
      cases hyt
    · exact h.held v y t' hy hyt
  unique := by
    intro v v' y y' t' hy hy' hyt hyt'
    rw [get_setWorker] at hy hy'
    split at hy
    · rw [hw] at hy
      cases hy
      rw [hf] at hyt
      cases hyt
    · split at hy'
      · rw [hw] at hy'
        cases hy'
        rw [hf] at hyt'
        cases hyt'
      · exact h.unique v v' y y' t' hy hy' hyt hyt'
  unheld := by
    intro t' hun
    show s.started.count t' = (if t'.2 < s.quota t'.1 then 1 else 0) ∧
      s.finished.count t' = (if t'.2 < s.quota t'.1 then 1 else 0)
    by_cases htt : t' = t
    · subst htt
      obtain ⟨-, -, h3, h4⟩ := h.held w x t' hw ht
      rw [hpc] at h3 h4
      rw [if_pos (h.lt_quota hw ht)]
      exact ⟨h3, h4⟩
    · refine h.unheld t' fun v y hy hyt => ?_
      by_cases hv : v = w
      · subst hv
        rw [hw] at hy
        cases hy
        rw [ht] at hyt
        exact htt (Option.some.inj hyt).symm
      · exact hun v y (by rw [get_setWorker, if_neg hv]; exact hy) hyt

/-- Where the books have been brought up to date, nothing else is concerned. -/
theorem Inv.move {f : Worker → Worker} {started finished : List TaskPtr} (h : Inv s)
    (hw : s.workers.get w = some x) (hf : Move x (f x))
    (hbooks : Books { s.setWorker w f with started, finished }) :
    Inv { s.setWorker w f with started, finished } := by
  have hcrew := h.crew.move hw hf
  have hplace := h.place.move hw hf
  exact ⟨hbooks, ⟨hcrew.made, hcrew.joined, hcrew.exit, hcrew.armed, hcrew.holders⟩, hplace,
    h.nodup, h.pos, h.clean, h.returned⟩

theorem count_snoc (l : List TaskPtr) (t t' : TaskPtr) :
    (l ++ [t]).count t' = l.count t' + if t' = t then 1 else 0 := by
  rw [List.count_append, List.count_singleton]
  by_cases ht : t' = t
  · rw [if_pos ht, if_pos (by simp [ht])]
  · rw [if_neg ht, if_neg (by simpa using fun heq => ht heq.symm)]

theorem count_same (l : List TaskPtr) (t t' : TaskPtr) :
    l.count t' = l.count t' + if t' = t then 0 else 0 := by
  rw [ite_self, Nat.add_zero]

/-- A step between two places at which no task is under way. -/
theorem Hop.of_pc {exitRun : Bool} {x' : Worker} (htask : x'.task = x.task)
    (hpc : x.pc.stage = (0, 0)) (hpc' : x'.pc.stage = (0, 0)) (hne : x.pc ≠ .returned)
    (hsound : x'.Sound exitRun) : Hop exitRun x x' :=
  ⟨htask, hpc'.trans hpc.symm, hsound, fun heq => absurd heq hne⟩

theorem runWorker_inv (h : Inv s) (hs : s.runWorker w = some s') : Inv s' := by
  unfold runWorker at hs
  obtain ⟨x, hw, hs⟩ := Option.bind_eq_some_iff.mp hs
  have hsound := h.books.sound w x hw
  unfold Worker.Sound at hsound
  cases hpc : x.pc with
  | testExit =>
      simp only [hpc] at hs
      cases hs
      refine h.hop hw (.of_pc rfl (by rw [hpc]; rfl) ?_ (by rw [hpc]; decide) ?_)
      · dsimp only
        split <;> rfl
      · unfold Worker.Sound
        dsimp only
        by_cases hexit : s.exitRun = true
        · rw [if_pos hexit]
          trivial
        · rw [if_neg hexit]
          trivial
  | testTask =>
      simp only [hpc] at hs
      by_cases htask : x.task = none
      · rw [if_pos htask] at hs
        split at hs
        · cases hs
          exact h.hop hw (.of_pc rfl (by rw [hpc]; rfl) rfl (by rw [hpc]; decide) trivial)
        · cases hs
          exact h.hop hw (.of_pc rfl (by rw [hpc]; rfl) rfl (by rw [hpc]; decide) trivial)
      · rw [if_neg htask] at hs
        cases hs
        refine h.hop hw (.of_pc rfl (by rw [hpc]; rfl) rfl (by rw [hpc]; decide) (.inl ?_))
        exact Option.isSome_iff_ne_none.mpr htask
  | lockMutex | woken =>
      simp only [hpc] at hs
      split at hs
      · cases hs
        exact h.hop hw (.of_pc rfl (by rw [hpc]; rfl) rfl (by rw [hpc]; decide) trivial)
      · cases hs
  | testWakeTask =>
      simp only [hpc] at hs
      cases hs
      refine h.hop hw (.of_pc rfl (by rw [hpc]; rfl) ?_ (by rw [hpc]; decide) ?_)
      · dsimp only
        split <;> rfl
      · unfold Worker.Sound
        dsimp only
        by_cases htask : x.task = none
        · rw [if_pos htask]
          trivial
        · rw [if_neg htask]
          exact .inl (Option.isSome_iff_ne_none.mpr htask)
  | testWakeExit =>
      simp only [hpc] at hs
      split at hs
      · rename_i hexit
        cases hs
        exact h.hop hw (.of_pc rfl (by rw [hpc]; rfl) rfl (by rw [hpc]; decide) (.inr hexit))
      · cases hs
        exact h.hop hw (.of_pc rfl (by rw [hpc]; rfl) rfl (by rw [hpc]; decide) trivial)
  | unlockMutex =>
      simp only [hpc] at hs hsound
      cases hs
      exact h.hop hw (.of_pc rfl (by rw [hpc]; rfl) rfl (by rw [hpc]; decide) hsound)
  | testExitAgain =>
      simp only [hpc] at hs hsound
      cases hs
      refine h.hop hw (.of_pc rfl (by rw [hpc]; rfl) ?_ (by rw [hpc]; decide) ?_)
      · dsimp only
        split <;> rfl
      · unfold Worker.Sound
        dsimp only
        by_cases hexit : s.exitRun = true
        · rw [if_pos hexit]
          trivial
        · rw [if_neg hexit]
          exact hsound.resolve_right hexit
  | callTask =>
      simp only [hpc] at hs hsound
      obtain ⟨t, ht⟩ := Option.isSome_iff_exists.mp hsound
      simp only [ht] at hs
      cases hs
      refine h.move hw ⟨.inl rfl, by simp [hpc]⟩ ?_
      exact h.books.record (m := 1) (n := 0) hw ht rfl ht (count_snoc _ t) (count_same _ t)
        (by rw [hpc]; rfl)
  | running t =>
      simp only [hpc] at hs hsound
      cases hs
      refine h.move hw ⟨.inl rfl, by simp [hpc]⟩ ?_
      exact h.books.record (m := 0) (n := 1) hw hsound rfl
        (show x.task.isSome by rw [hsound]; rfl) (count_same _ t) (count_snoc _ t)
        (by rw [hpc]; rfl)
  | clearTask =>
      simp only [hpc] at hs hsound
      obtain ⟨t, ht⟩ := Option.isSome_iff_exists.mp hsound
      cases hs
      exact h.move hw ⟨.inr rfl, by simp [hpc]⟩ (h.books.clear hw ht hpc rfl trivial)
  | waiting | returned =>
      simp only [hpc] at hs
      cases hs

/-- A wake-up, also one without a reason. -/
theorem wake_inv (h : Inv s) (w : Nat) : Inv (s.setWorker w wake) := by
  cases hw : s.workers.get w with
  | none =>
      have heq : s.workers.modify w wake = s.workers := by
        refine Heap.ext (fun v => ?_) rfl
        rw [Heap.get_modify]
        split
        · rename_i hv
          rw [hv, hw]
          rfl
        · rfl
      rw [setWorker, heq]
      exact h
  | some x =>
      refine h.hop hw ?_
      unfold wake
      split
      · rename_i hpc
        exact .of_pc rfl (by rw [hpc]; rfl) rfl (by rw [hpc]; decide) trivial
      · exact ⟨rfl, rfl, h.books.sound w x hw, id⟩

/-! ## Steps of the caller -/

/-- Where no task is handed out, no worker has one. -/
theorem Books.idle (h : Books s) (hj : s.caller.handed.getD 0 = 0) :
    ∀ w x, s.workers.get w = some x → x.task = none := by
  intro w x hw
  cases ht : x.task with
  | none => rfl
  | some t =>
      obtain ⟨-, hlt, -⟩ := h.held w x t hw ht
      rw [hj] at hlt
      exact absurd hlt (Nat.not_lt_zero _)

theorem Crew.no_holders (h : ∀ w x, s.workers.get w = some x → x.task = none) :
    ∀ w x, s.workers.get w = some x → x.task ≠ none →
      ∃ i < s.usedThreadNum, s.contexts[i]? = some (some w) :=
  fun w x hw hne => absurd (h w x hw) hne

theorem quota_congr (hcalls : s'.calls = s.calls) (hh : s'.caller.handed = s.caller.handed)
    (k : Nat) : s'.quota k = s.quota k := by
  unfold quota
  rw [hcalls, hh]

/-- The caller moves on within the threads' view. -/
theorem Books.congr (h : Books s) (hworkers : s'.workers = s.workers)
    (hcalls : s'.calls = s.calls) (hstarted : s'.started = s.started)
    (hfinished : s'.finished = s.finished) (hh : s'.caller.handed = s.caller.handed)
    (hsound : ∀ w x, s.workers.get w = some x → x.Sound s'.exitRun) : Books s' where
  sound := by rw [hworkers]; exact hsound
  held := by
    rw [hworkers, hcalls, hstarted, hfinished, hh]
    exact h.held
  unique := by rw [hworkers]; exact h.unique
  unheld := by
    intro t ht
    have ht' : Unheld s t := by
      intro w x hw
      exact ht w x (by rw [hworkers]; exact hw)
    rw [hstarted, hfinished, quota_congr hcalls hh]
    exact h.unheld t ht'

theorem Inv.goto {pc : CallerPc} (h : Inv s) (hh : pc.handed = s.caller.handed)
    (hcl : pc.clearing = s.caller.clearing) (harmed : pc.armed = true → s.exitRun = false)
    (hplace : Place (s.goto pc)) : Inv (s.goto pc) where
  books := h.books.congr rfl rfl rfl rfl hh h.books.sound
  crew := ⟨h.crew.made, h.crew.joined, fun hexit hc => h.crew.exit hexit (hcl ▸ hc), harmed,
    h.crew.holders⟩
  place := hplace
  nodup := h.nodup
  pos := h.pos
  clean := h.clean
  returned := by
    show ∀ r ∈ s.returned, r.1 < s.calls.length ∧ (pc.handed.isSome → _)
    rw [hh]
    exact h.returned

theorem tasks_eq {k : Nat} (hk : k + 1 = s.calls.length) : s.calls[k]? = some s.tasks := by
  have hlast : s.calls.getLast? = s.calls[k]? := by
    rw [List.getLast?_eq_getElem?, ← hk]
    rfl
  unfold tasks
  rw [hlast, List.getElem?_eq_getElem (by omega)]
  rfl

theorem calls_ne_nil (h : 0 < s.tasks.length) : s.current + 1 = s.calls.length := by
  have hne : s.calls ≠ [] := by
    intro heq
    unfold tasks at h
    rw [heq] at h
    cases h
  have := List.length_pos_iff.mpr hne
  unfold current
  omega

/-- The last task has been handed out and all of them are done. -/
theorem Books.ret (h : Books s) (hj : s.caller.handed = some s.tasks.length)
    (hidle : ∀ w x, s.workers.get w = some x → x.task = none) (ok : Bool) :
    Books (s.ret ok) where
  sound := h.sound
  held := fun w x t hw ht => by
    rw [hidle w x hw] at ht
    cases ht
  unique := h.unique
  unheld := by
    intro t ht
    have hquota : (s.ret ok).quota t.1 = s.quota t.1 := by
      unfold quota
      show (match s.calls[t.1]? with
        | none => 0
        | some tasks => if t.1 + 1 = s.calls.length then tasks.length else tasks.length) = _
      rw [hj]
      cases hcalls : s.calls[t.1]? with
      | none => rfl
      | some tasks =>
          by_cases hk : t.1 + 1 = s.calls.length
          · rw [tasks_eq hk] at hcalls
            cases hcalls
            simp only [if_pos hk, Option.getD_some]
          · simp only [if_neg hk]
    rw [hquota]
    exact h.unheld t ht

theorem Inv.ret (h : Inv s) (hj : s.caller.handed = some s.tasks.length)
    (hidle : ∀ w x, s.workers.get w = some x → x.task = none) (hcl : s.caller.clearing = false)
    (hplace : Manned s ∧ (s.threads = [] ∨ s.contexts = s.threads.map some))
    (hpos : 0 < s.tasks.length) (ok : Bool) : Inv (s.ret ok) where
  books := h.books.ret hj hidle ok
  crew := ⟨h.crew.made, h.crew.joined, fun hexit _ => h.crew.exit hexit hcl, nofun,
    Crew.no_holders hidle⟩
  place := hplace
  nodup := h.nodup
  pos := h.pos
  clean := h.clean
  returned := by
    intro r hr
    refine ⟨?_, nofun⟩
    rcases List.mem_append.mp hr with hr | hr
    · exact (h.returned r hr).1
    · rw [List.mem_singleton.mp hr]
      show s.current < s.calls.length
      have := calls_ne_nil hpos
      omega

/-! ### Contexts -/

theorem Crew.manned (h : Crew s) (hpair : s.contexts = s.threads.map some) : Manned s := by
  intro o ho
  rw [hpair] at ho
  obtain ⟨w, hw, rfl⟩ := List.mem_map.mp ho
  obtain ⟨x, hx⟩ := h.made w hw
  exact ⟨w, x, rfl, hx⟩

theorem Manned.context (h : Manned s) {i : Nat} (hi : i < s.contexts.length) :
    ∃ w x, s.contexts[i]? = some (some w) ∧ s.workers.get w = some x ∧
      s.context i = some (w, x) := by
  obtain ⟨w, x, hw, hx⟩ := h _ (List.getElem_mem hi)
  have hget : s.contexts[i]? = some (some w) := by
    rw [List.getElem?_eq_getElem hi, hw]
  refine ⟨w, x, hget, hx, ?_⟩
  unfold ThreadPool.context
  rw [hget]
  show (s.workers.get w).bind _ = _
  rw [hx]
  rfl

theorem onContext_some {i : Nat} {f : Nat → Worker → Option ThreadPool} (h : Manned s)
    (hi : i < s.contexts.length) (hs : s.onContext i f = some s') :
    ∃ w x, s.contexts[i]? = some (some w) ∧ s.workers.get w = some x ∧ f w x = some s' := by
  obtain ⟨w, x, hget, hx, hctx⟩ := h.context hi
  refine ⟨w, x, hget, hx, ?_⟩
  unfold onContext at hs
  rw [hctx] at hs
  exact hs

theorem used_le (s : ThreadPool) :
    s.usedThreadNum ≤ s.contexts.length ∧ s.usedThreadNum ≤ s.tasks.length := by
  unfold usedThreadNum
  split
  · exact ⟨by omega, Nat.le_refl _⟩
  · exact ⟨Nat.le_refl _, by omega⟩

theorem vacant_of_get {i : Nat} (hget : s.contexts[i]? = some (some w))
    (hw : s.workers.get w = some x) (hx : x.task = none) : Vacant s i := by
  intro v y hv hy
  rw [hget] at hv
  cases hv
  rw [hw] at hy
  cases hy
  exact hx

/-! ### `SyncRun` before the loop -/

theorem resetExit_inv (h : Inv s) (hc : s.caller = .resetExit) :
    Inv ({ s with exitRun := false }.goto .growThreads) := by
  have hplace := h.place
  unfold Place at hplace
  rw [hc] at hplace
  have hsound : ∀ w x, s.workers.get w = some x → x.Sound false := by
    intro w x hw
    have hx := h.books.sound w x hw
    by_cases hexit : s.exitRun = true
    · have hpc := h.crew.exit hexit (by rw [hc]; rfl) w x hw
      unfold Worker.Sound
      rw [hpc]
      trivial
    · rw [Bool.not_eq_true] at hexit
      rw [hexit] at hx
      exact hx
  exact
    { books := h.books.congr rfl rfl rfl rfl (by rw [hc]; rfl) hsound
      crew := ⟨h.crew.made, h.crew.joined, nofun, fun _ => rfl, h.crew.holders⟩
      place := hplace
      nodup := h.nodup
      pos := h.pos
      clean := h.clean
      returned := by
        have := h.returned
        rw [hc] at this
        exact this }

theorem length_resize (contexts : List (Option Nat)) (n : Nat) :
    (resize contexts n).length = n := by
  unfold resize
  rw [List.length_append, List.length_take, List.length_replicate]
  omega

theorem take_resize {contexts : List (Option Nat)} {n : Nat} (hn : contexts.length ≤ n) :
    (resize contexts n).take contexts.length = contexts := by
  unfold resize
  rw [List.take_of_length_le hn, List.take_left]

theorem growThreads_inv (h : Inv s) (hc : s.caller = .growThreads)
    (hs : s.runCaller = some s') : Inv s' := by
  have hplace := h.place
  unfold Place at hplace
  rw [hc] at hplace
  obtain ⟨hmanned, hpair, htasks⟩ := hplace
  have harmed : s.exitRun = false := h.crew.armed (by rw [hc]; rfl)
  have hidle := h.books.idle (by rw [hc]; rfl)
  have hpos := h.pos
  unfold runCaller at hs
  simp only [hc] at hs
  split at hs
  · rename_i hgrow
    cases hs
    generalize hnew : (if s.tasks.length < s.maxThreadNum then s.tasks.length
      else s.maxThreadNum) = new
    have hle : s.threads.length ≤ new ∧ 0 < new := by
      rw [← hnew]
      split <;> omega
    refine
      { books := h.books.congr rfl rfl rfl rfl (by rw [hc]; rfl) h.books.sound
        crew := ⟨h.crew.made, h.crew.joined, ?_, fun _ => harmed, Crew.no_holders hidle⟩
        place := ⟨rfl, hle.1, hle.2, length_resize .., ?_, htasks⟩
        nodup := h.nodup
        pos := h.pos
        clean := h.clean
        returned := ?_ }
    · intro hexit
      rw [show s.exitRun = true from hexit] at harmed
      cases harmed
    · rcases hpair with hnil | hpair
      · show (resize s.contexts new).take s.threads.length = s.threads.map some
        rw [hnil]
        rfl
      · have hlen : s.contexts.length = s.threads.length := by rw [hpair, List.length_map]
        show (resize s.contexts new).take s.threads.length = s.threads.map some
        rw [← hlen, take_resize (by omega), hpair]
    · have := h.returned
      rw [hc] at this
      exact this
  · rename_i hgrow
    cases hs
    have hne : s.threads ≠ [] := by
      intro heq
      rw [heq] at hgrow
      exact hgrow ⟨hpos, by simp; omega⟩
    exact h.goto (by rw [hc]; rfl) (by rw [hc]; rfl) (fun _ => harmed)
      ⟨hne, hpair.resolve_left hne, htasks⟩

/-- A new worker has no task. -/
theorem Books.spawn (h : Books s) {contexts : List (Option Nat)} {threads : List Nat}
    {pc : CallerPc} (hh : pc.handed = s.caller.handed) :
    Books { s with workers := s.workers.new {}, contexts, threads, caller := pc } := by
  have hcases : ∀ w x, (s.workers.new {}).get w = some x →
      s.workers.get w = some x ∨ x = {} := by
    intro w x hw
    rw [Heap.get_new] at hw
    split at hw
    · exact .inr (Option.some.inj hw).symm
    · exact .inl hw
  have hheld : ∀ w x t, (s.workers.new {}).get w = some x → x.task = some t →
      s.workers.get w = some x := by
    intro w x t hw ht
    rcases hcases w x hw with hw | rfl
    · exact hw
    · cases ht
  exact
    { sound := by
        intro w x hw
        rcases hcases w x hw with hw | rfl
        · exact h.sound w x hw
        · trivial
      held := by
        intro w x t hw ht
        show _ ∧ t.2 < pc.handed.getD 0 ∧ _
        rw [hh]
        exact h.held w x t (hheld w x t hw ht) ht
      unique := fun w w' x x' t hw hw' ht ht' =>
        h.unique w w' x x' t (hheld w x t hw ht) (hheld w' x' t hw' ht') ht ht'
      unheld := by
        intro t ht
        have hquota : ({ s with workers := s.workers.new {}, contexts, threads, caller := pc } :
          ThreadPool).quota t.1 = s.quota t.1 := by
          refine quota_congr ?_ ?_ _
          · rfl
          · exact hh
        rw [hquota]
        refine h.unheld t fun w x hw => ht w x ?_
        show (s.workers.new {}).get w = some x
        rw [Heap.get_new, if_neg (Heap.ne_next hw)]
        exact hw }

theorem spawnThread_inv {i new : Nat} (h : Inv s) (hc : s.caller = .spawnThread i new)
    (hs : s.runCaller = some s') : Inv s' := by
  have hplace := h.place
  unfold Place at hplace
  rw [hc] at hplace
  obtain ⟨hlen, hle, hpos, hctx, htake, htasks⟩ := hplace
  have harmed : s.exitRun = false := h.crew.armed (by rw [hc]; rfl)
  have hidle := h.books.idle (by rw [hc]; rfl)
  have hfresh : s.workers.next ∉ s.threads := by
    intro hmem
    obtain ⟨x, hx⟩ := h.crew.made _ hmem
    exact Heap.ne_next hx rfl
  unfold runCaller at hs
  simp only [hc] at hs
  split at hs
  · rename_i hlt
    cases hs
    have hcases : ∀ w x, (s.workers.new {}).get w = some x →
        s.workers.get w = some x ∨ (w = s.workers.next ∧ x = {}) := by
      intro w x hw
      rw [Heap.get_new] at hw
      split at hw
      · rename_i hw'
        exact .inr ⟨hw', (Option.some.inj hw).symm⟩
      · exact .inl hw
    refine
      { books := h.books.spawn (by rw [hc]; rfl)
        crew := ⟨?_, ?_, ?_, fun _ => harmed, Crew.no_holders ?_⟩
        place := ⟨?_, hlt, hpos, ?_, ?_, htasks⟩
        nodup := ?_
        pos := h.pos
        clean := h.clean
        returned := ?_ }
    · intro w hw
      show ∃ x, (s.workers.new {}).get w = some x
      rcases List.mem_append.mp hw with hw | hw
      · obtain ⟨x, hx⟩ := h.crew.made w hw
        exact ⟨x, by rw [Heap.get_new, if_neg (Heap.ne_next hx)]; exact hx⟩
      · rw [List.mem_singleton.mp hw]
        exact ⟨{}, Heap.get_new_self _ _⟩
    · intro w x hw
      rcases hcases w x hw with hw | ⟨rfl, -⟩
      · exact (h.crew.joined w x hw).imp_left fun hmem => List.mem_append_left _ hmem
      · exact .inl (List.mem_append_right _ (.head _))
    · intro hexit
      rw [show s.exitRun = true from hexit] at harmed
      cases harmed
    · intro w x hw
      rcases hcases w x hw with hw | ⟨-, rfl⟩
      · exact hidle w x hw
      · rfl
    · show (s.threads ++ [s.workers.next]).length = i + 1
      rw [List.length_append, hlen]
      rfl
    · show (s.contexts.set i _).length = new
      rw [List.length_set, hctx]
    · show (s.contexts.set i (some s.workers.next)).take (i + 1) =
        (s.threads ++ [s.workers.next]).map some
      rw [List.take_add_one, List.getElem?_set_self (by omega), List.take_set_of_le (Nat.le_refl _),
        htake, List.map_append]
      rfl
    · exact List.nodup_append.mpr ⟨h.nodup, List.nodup_singleton _, fun a ha b hb heq => by
        rw [List.mem_singleton.mp hb] at heq
        exact hfresh (heq ▸ ha)⟩
    · have := h.returned
      rw [hc] at this
      exact this
  · rename_i hlt
    cases hs
    have heq : i = new := by omega
    refine h.goto (by rw [hc]; rfl) (by rw [hc]; rfl) (fun _ => harmed) ⟨?_, ?_, htasks⟩
    · show s.threads ≠ []
      rw [← List.length_pos_iff]
      omega
    · rw [heq, ← hctx, List.take_length] at htake
      exact htake

theorem testContexts_inv (h : Inv s) (hc : s.caller = .testContexts)
    (hs : s.runCaller = some s') : Inv s' := by
  have hplace := h.place
  unfold Place at hplace
  rw [hc] at hplace
  obtain ⟨hne, hpair, htasks⟩ := hplace
  have harmed : s.exitRun = false := h.crew.armed (by rw [hc]; rfl)
  unfold runCaller at hs
  simp only [hc] at hs
  split at hs
  · rename_i hempty
    rw [List.isEmpty_iff] at hempty
    rw [hempty] at hpair
    exact absurd (List.map_eq_nil_iff.mp hpair.symm) hne
  · cases hs
    exact h.goto (by rw [hc]; rfl) (by rw [hc]; rfl) (fun _ => harmed)
      ⟨hne, hpair, htasks, Nat.zero_le _, fun _ => ⟨nofun, nofun⟩⟩

/-! ### The loop of `SyncRun` -/

theorem pollTask_inv {i j : Nat} {running : Bool} (h : Inv s)
    (hc : s.caller = .pollTask i j running) (hs : s.runCaller = some s') : Inv s' := by
  have hplace := h.place
  unfold Place at hplace
  rw [hc] at hplace
  obtain ⟨hne, hpair, htasks, hj, hseen⟩ := hplace
  have harmed : s.exitRun = false := h.crew.armed (by rw [hc]; rfl)
  have hmanned := h.crew.manned hpair
  unfold runCaller at hs
  simp only [hc] at hs
  split at hs
  · rename_i hi
    obtain ⟨w, x, hget, hw, hs⟩ := onContext_some hmanned (Nat.lt_of_lt_of_le hi (used_le s).1) hs
    split at hs
    · cases hs
      exact h.goto (by rw [hc]; rfl) (by rw [hc]; rfl) (fun _ => harmed)
        ⟨hne, hpair, htasks, hj, nofun⟩
    · rename_i hnone
      have hvacant := vacant_of_get hget hw (not_not.mp hnone)
      split at hs
      · rename_i hlt
        cases hs
        exact h.goto (by rw [hc]; rfl) (by rw [hc]; rfl) (fun _ => harmed)
          ⟨hne, hpair, htasks, hlt, hi, hvacant⟩
      · rename_i hge
        cases hs
        refine h.goto (by rw [hc]; rfl) (by rw [hc]; rfl) (fun _ => harmed)
          ⟨hne, hpair, htasks, hj, fun hr => ⟨fun i' hi' => ?_, fun _ => ?_⟩⟩
        · rcases Nat.lt_or_ge i' i with hlt | hge'
          · exact (hseen hr).1 i' hlt
          · obtain rfl : i' = i := by omega
            exact hvacant
        · show j = s.tasks.length
          omega
  · rename_i hi
    split at hs
    · cases hs
      exact h.goto (by rw [hc]; rfl) (by rw [hc]; rfl) (fun _ => harmed)
        ⟨hne, hpair, htasks, hj, fun _ => ⟨nofun, nofun⟩⟩
    · rename_i hr
      cases hs
      rw [Bool.not_eq_true] at hr
      obtain ⟨hvacant, hlast⟩ := hseen hr
      have hused : 0 < s.usedThreadNum := by
        have hlen : 0 < s.contexts.length := by
          rw [hpair, List.length_map]
          exact List.length_pos_iff.mpr hne
        unfold usedThreadNum
        split <;> omega
      have hidle : ∀ w x, s.workers.get w = some x → x.task = none := by
        intro w x hw
        by_contra hx
        obtain ⟨i', hi', hget⟩ := h.crew.holders w x hw hx
        exact hx (hvacant i' (by omega) w x hget hw)
      refine h.ret ?_ hidle (by rw [hc]; rfl) ⟨hmanned, .inr hpair⟩ (by omega) true
      rw [hc]
      exact congrArg some (hlast (by omega))

/-- The caller hands out a task. -/
theorem Books.assign {j : Nat} (pc : CallerPc) (h : Books s) (hw : s.workers.get w = some x)
    (hx : x.task = none) (hk : s.current + 1 = s.calls.length) (hj : s.caller.handed = some j)
    (hpc : pc.handed = some (j + 1)) :
    Books ((s.setWorker w fun x => { x with task := some (s.current, j) }).goto pc) := by
  have hnew : Unheld s (s.current, j) := by
    intro v y hy hyt
    obtain ⟨-, hlt, -⟩ := h.held v y _ hy hyt
    rw [hj] at hlt
    exact Nat.lt_irrefl _ hlt
  have hcounts := h.unheld _ hnew
  rw [quota_current hk hj, if_neg (Nat.lt_irrefl _)] at hcounts
  have hsound := h.sound w x hw
  have hstage : x.pc.stage = (0, 0) ∧
      ({ x with task := some (s.current, j) } : Worker).Sound s.exitRun := by
    unfold Worker.Sound at hsound ⊢
    rw [hx] at hsound
    cases hp : x.pc with
    | callTask | clearTask | running =>
        rw [hp] at hsound
        cases hsound
    | unlockMutex | testExitAgain => exact ⟨rfl, .inl rfl⟩
    | _ => exact ⟨rfl, trivial⟩
  have hcases : ∀ v y, (s.setWorker w fun x => { x with task := some (s.current, j) }).workers.get v
      = some y → (v = w ∧ y = { x with task := some (s.current, j) }) ∨
        (v ≠ w ∧ s.workers.get v = some y) := by
    intro v y hy
    rw [get_setWorker] at hy
    split at hy
    · rename_i hv
      rw [hw] at hy
      exact .inl ⟨hv, (Option.some.inj hy).symm⟩
    · rename_i hv
      exact .inr ⟨hv, hy⟩
  exact
    { sound := by
        intro v y hy
        rcases hcases v y hy with ⟨-, rfl⟩ | ⟨-, hy⟩
        · exact hstage.2
        · exact h.sound v y hy
      held := by
        intro v y t hy ht
        show t.1 + 1 = s.calls.length ∧ t.2 < pc.handed.getD 0 ∧ s.started.count t = _ ∧
          s.finished.count t = _
        rw [hpc]
        rcases hcases v y hy with ⟨-, rfl⟩ | ⟨-, hy⟩
        · cases ht
          show _ ∧ _ ∧ _ = x.pc.stage.1 ∧ _ = x.pc.stage.2
          rw [hstage.1]
          exact ⟨hk, Nat.lt_succ_self j, hcounts⟩
        · obtain ⟨h1, h2, h3⟩ := h.held v y t hy ht
          rw [hj] at h2
          exact ⟨h1, Nat.lt_succ_of_lt h2, h3⟩
      unique := by
        intro v v' y y' t hy hy' ht ht'
        rcases hcases v y hy with ⟨rfl, rfl⟩ | ⟨-, hold⟩
        · cases ht
          rcases hcases v' y' hy' with ⟨rfl, -⟩ | ⟨-, hold'⟩
          · rfl
          · exact absurd ht' (hnew v' y' hold')
        · rcases hcases v' y' hy' with ⟨rfl, rfl⟩ | ⟨-, hold'⟩
          · cases ht'
            exact absurd ht (hnew v y hold)
          · exact h.unique v v' y y' t hold hold' ht ht'
      unheld := by
        intro t ht
        have hne : t ≠ (s.current, j) := by
          rintro rfl
          refine ht w { x with task := some (s.current, j) } ?_ rfl
          show (s.workers.modify w _).get w = _
          rw [Heap.get_modify_self, hw]
          rfl
        have hold : Unheld s t := by
          intro v y hy hyt
          by_cases hv : v = w
          · subst hv
            rw [hw] at hy
            cases hy
            rw [hx] at hyt
            cases hyt
          · refine ht v y ?_ hyt
            show (s.workers.modify w _).get v = _
            rw [Heap.get_modify_ne _ _ hv]
            exact hy
        have hquota : t.2 < ((s.setWorker w fun x =>
            { x with task := some (s.current, j) }).goto pc).quota t.1 ↔ t.2 < s.quota t.1 := by
          by_cases hcur : t.1 + 1 = s.calls.length
          · rw [quota_current hcur hj, quota_current (s := (s.setWorker w fun x =>
              { x with task := some (s.current, j) }).goto pc) hcur hpc]
            have ht2 : t.2 ≠ j := by
              intro heq
              refine hne (Prod.ext ?_ heq)
              show t.1 = s.current
              omega
            omega
          · unfold quota
            show t.2 < (match s.calls[t.1]? with
              | none => 0
              | some tasks => if t.1 + 1 = s.calls.length then _ else tasks.length) ↔ _
            simp only [if_neg hcur]
        simp only [hquota]
        exact h.unheld t hold }

theorem assignTask_inv {i j : Nat} (h : Inv s) (hc : s.caller = .assignTask i j)
    (hs : s.runCaller = some s') : Inv s' := by
  have hplace := h.place
  unfold Place at hplace
  rw [hc] at hplace
  obtain ⟨hne, hpair, htasks, hj, hi, hvacant⟩ := hplace
  have harmed : s.exitRun = false := h.crew.armed (by rw [hc]; rfl)
  have hmanned := h.crew.manned hpair
  unfold runCaller at hs
  simp only [hc] at hs
  obtain ⟨w, x, hget, hw, hs⟩ := onContext_some hmanned (Nat.lt_of_lt_of_le hi (used_le s).1) hs
  cases hs
  have hbooks := h.books.assign (.notifyTask i j) hw (hvacant w x hget hw)
    (calls_ne_nil (by omega)) (by rw [hc]; rfl) rfl
  exact
    { books := hbooks
      crew :=
        { made := by
            intro v hv
            obtain ⟨y, hy⟩ := h.crew.made v hv
            show ∃ y, (s.setWorker w _).workers.get v = some y
            rw [get_setWorker]
            split
            · exact ⟨_, by rw [hw]; rfl⟩
            · exact ⟨y, hy⟩
          joined := forall_setWorker h.crew.joined hw id
          exit := fun hexit => by
            rw [show s.exitRun = true from hexit] at harmed
            cases harmed
          armed := fun _ => harmed
          holders := forall_setWorker h.crew.holders hw fun _ _ => ⟨i, hi, hget⟩ }
      place := ⟨hne, hpair, htasks, hj, hi⟩
      nodup := h.nodup
      pos := h.pos
      clean := h.clean
      returned := by
        have := h.returned
        rw [hc] at this
        exact this }

/-- A change of the mutex of a worker. -/
theorem hop_mutex (hw : s.workers.get w = some x) (h : Inv s) (m : Option Owner) :
    Inv (s.setWorker w fun x => { x with mutex := m }) :=
  h.hop hw ⟨rfl, rfl, h.books.sound w x hw, id⟩

theorem lockTask_inv {i j : Nat} (h : Inv s) (hc : s.caller = .lockTask i j)
    (hs : s.runCaller = some s') : Inv s' := by
  have hplace := h.place
  unfold Place at hplace
  rw [hc] at hplace
  have harmed : s.exitRun = false := h.crew.armed (by rw [hc]; rfl)
  unfold runCaller at hs
  simp only [hc] at hs
  obtain ⟨w, x, hget, hw, hs⟩ := onContext_some (h.crew.manned hplace.2.1)
    (Nat.lt_of_lt_of_le hplace.2.2.2.2.1 (used_le s).1) hs
  split at hs
  · cases hs
    have h' := hop_mutex hw h (some .caller)
    have hplace' := h'.place
    unfold Place at hplace'
    rw [show (s.setWorker w _).caller = _ from hc] at hplace'
    exact h'.goto (by rw [show (s.setWorker w _).caller = _ from hc]; rfl)
      (by rw [show (s.setWorker w _).caller = _ from hc]; rfl) (fun _ => harmed) hplace'
  · cases hs

theorem notifyTask_inv {i j : Nat} (h : Inv s) (hc : s.caller = .notifyTask i j)
    (hs : s.runCaller = some s') : Inv s' := by
  have hplace := h.place
  unfold Place at hplace
  rw [hc] at hplace
  have harmed : s.exitRun = false := h.crew.armed (by rw [hc]; rfl)
  unfold runCaller at hs
  simp only [hc] at hs
  obtain ⟨w, x, hget, hw, hs⟩ := onContext_some (h.crew.manned hplace.2.1)
    (Nat.lt_of_lt_of_le hplace.2.2.2.2 (used_le s).1) hs
  cases hs
  have hc' : (s.setWorker w wake).caller = .notifyTask i j := hc
  exact (wake_inv h w).goto (by rw [hc']; rfl) (by rw [hc']; rfl) (fun _ => harmed) hplace

theorem unlockTask_inv {i j : Nat} (h : Inv s) (hc : s.caller = .unlockTask i j)
    (hs : s.runCaller = some s') : Inv s' := by
  have hplace := h.place
  unfold Place at hplace
  rw [hc] at hplace
  obtain ⟨hne, hpair, htasks, hj, hi⟩ := hplace
  have harmed : s.exitRun = false := h.crew.armed (by rw [hc]; rfl)
  unfold runCaller at hs
  simp only [hc] at hs
  obtain ⟨w, x, hget, hw, hs⟩ := onContext_some (h.crew.manned hpair)
    (Nat.lt_of_lt_of_le hi (used_le s).1) hs
  cases hs
  have hc' : (s.setWorker w fun x => { x with mutex := none }).caller = .unlockTask i j := hc
  exact (hop_mutex hw h none).goto (by rw [hc']; rfl) (by rw [hc']; rfl) (fun _ => harmed)
    ⟨hne, hpair, htasks, hj, nofun⟩

/-! ### `ClearThreadPool` -/

theorem setExit_inv (h : Inv s) (hc : s.caller = .setExit) :
    Inv ({ s with exitRun := true }.goto (.notifyAll 0)) := by
  have hplace := h.place
  unfold Place at hplace
  rw [hc] at hplace
  have hsound : ∀ w x, s.workers.get w = some x → x.Sound true := by
    intro w x hw
    have hx := h.books.sound w x hw
    unfold Worker.Sound at hx ⊢
    split
    · rename_i hp
      rw [hp] at hx
      exact hx
    · rename_i hp
      rw [hp] at hx
      exact hx
    · rename_i hp
      rw [hp] at hx
      exact hx
    · exact .inr rfl
    · exact .inr rfl
    · trivial
  exact
    { books := h.books.congr rfl rfl rfl rfl (by rw [hc]; rfl) hsound
      crew := ⟨h.crew.made, h.crew.joined, nofun, nofun, h.crew.holders⟩
      place := hplace
      nodup := h.nodup
      pos := h.pos
      clean := h.clean
      returned := by
        have := h.returned
        rw [hc] at this
        exact this }

theorem notifyAll_inv {i : Nat} (h : Inv s) (hc : s.caller = .notifyAll i)
    (hs : s.runCaller = some s') : Inv s' := by
  have hplace := h.place
  unfold Place at hplace
  rw [hc] at hplace
  unfold runCaller at hs
  simp only [hc] at hs
  split at hs
  · rename_i hi
    obtain ⟨w, x, hget, hw, hs⟩ := onContext_some hplace.1 hi hs
    cases hs
    have hc' : (s.setWorker w wake).caller = .notifyAll i := hc
    exact (wake_inv h w).goto (by rw [hc']; rfl) (by rw [hc']; rfl) nofun
      ⟨hplace.1.move hw, hplace.2⟩
  · cases hs
    exact h.goto (by rw [hc]; rfl) (by rw [hc]; rfl) nofun
      ⟨hplace.1, hplace.2, nofun⟩

theorem joinThread_inv {i : Nat} (h : Inv s) (hc : s.caller = .joinThread i)
    (hs : s.runCaller = some s') : Inv s' := by
  have hplace := h.place
  unfold Place at hplace
  rw [hc] at hplace
  obtain ⟨hmanned, hpair, hback⟩ := hplace
  unfold runCaller at hs
  simp only [hc] at hs
  split at hs
  · rename_i hend
    cases hs
    -- every thread has been joined
    have hall : ∀ w x, s.workers.get w = some x → x.pc = .returned := by
      intro w x hw
      rcases h.crew.joined w x hw with hmem | hpc
      · obtain ⟨i', hi', hget⟩ := List.mem_iff_getElem.mp hmem
        have hlen := List.getElem?_eq_none_iff.mp hend
        exact hback i' (by omega) w x (by rw [List.getElem?_eq_getElem hi', hget]) hw
      · exact hpc
    exact
      { books := h.books.congr rfl rfl rfl rfl (by rw [hc]; rfl) h.books.sound
        crew := ⟨nofun, fun w x hw => .inr (hall w x hw), fun _ _ => hall, nofun,
          Crew.no_holders (h.books.idle (by rw [hc]; rfl))⟩
        place := ⟨hmanned, .inl rfl⟩
        nodup := List.nodup_nil
        pos := h.pos
        clean := h.clean
        returned := by
          have := h.returned
          rw [hc] at this
          exact this }
  · rename_i w hget
    split at hs
    · rename_i hret
      cases hs
      refine h.goto (by rw [hc]; rfl) (by rw [hc]; rfl) nofun ⟨hmanned, hpair, ?_⟩
      intro i' hi' v y hv hy
      rcases Nat.lt_or_ge i' i with hlt | hge
      · exact hback i' hlt v y hv hy
      · obtain rfl : i' = i := by omega
        have hv : s.threads[i']? = some v := hv
        have hy : s.workers.get v = some y := hy
        rw [hget] at hv
        cases hv
        rw [hy] at hret
        exact Option.some.inj hret
    · cases hs

/-! ### The calls -/

/-- All tasks of a call, unless it is the one in progress. -/
theorem quota_done {k : Nat} (h : s.caller.handed = none ∨ k + 1 ≠ s.calls.length) :
    s.quota k = (s.calls[k]?.map List.length).getD 0 := by
  unfold quota
  cases hcalls : s.calls[k]? with
  | none => rfl
  | some tasks =>
      show (if k + 1 = s.calls.length then s.caller.handed.getD tasks.length else tasks.length) =
        tasks.length
      rcases h with h | h
      · rw [h, Option.getD_none, ite_self]
      · rw [if_neg h]

theorem callSingle_inv (h : Inv s) (hc : s.caller = .callSingle)
    (hs : s.runCaller = some s') : Inv s' := by
  have hplace := h.place
  unfold Place at hplace
  rw [hc] at hplace
  obtain ⟨hmanned, hpair, htasks⟩ := hplace
  have hk : s.current + 1 = s.calls.length := calls_ne_nil (by omega)
  have hidle := h.books.idle (by rw [hc]; rfl)
  unfold runCaller at hs
  simp only [hc] at hs
  cases hs
  generalize decide (s.tasks.head? = some Status.success) = ok
  exact
    { books :=
        { sound := h.books.sound
          held := fun w x t hw ht => by
            rw [hidle w x hw] at ht
            cases ht
          unique := h.books.unique
          unheld := by
            intro t ht
            have hold := h.books.unheld t ht
            have hquota : (({ s with
                caller := .callSingle
                started := s.started ++ [(s.current, 0)]
                finished := s.finished ++ [(s.current, 0)] } : ThreadPool).ret ok).quota t.1 =
                (s.calls[t.1]?.map List.length).getD 0 := quota_done (.inl rfl)
            rw [hquota]
            show (s.started ++ [(s.current, 0)]).count t = _ ∧
              (s.finished ++ [(s.current, 0)]).count t = _
            rw [count_snoc, count_snoc, hold.1, hold.2]
            by_cases hcur : t.1 + 1 = s.calls.length
            · have hq : s.quota t.1 = 0 := quota_current hcur (by rw [hc]; rfl)
              have hnew : (s.calls[t.1]?.map List.length).getD 0 = 1 := by
                rw [tasks_eq hcur]
                exact htasks
              have htask : t = (s.current, 0) ↔ t.2 < 1 := by
                rw [Prod.ext_iff]
                show t.1 = s.current ∧ t.2 = 0 ↔ _
                omega
              rw [hq, hnew, if_neg (Nat.not_lt_zero _), Nat.zero_add]
              simp only [htask, and_self]
            · have hne : t ≠ (s.current, 0) := by
                rintro rfl
                exact hcur hk
              rw [if_neg hne, Nat.add_zero, quota_done (.inr hcur)]
              exact ⟨rfl, rfl⟩ }
      crew := ⟨h.crew.made, h.crew.joined, fun hexit _ => h.crew.exit hexit (by rw [hc]; rfl),
        nofun, Crew.no_holders hidle⟩
      place := ⟨hmanned, hpair⟩
      nodup := h.nodup
      pos := h.pos
      clean := h.clean
      returned := by
        intro r hr
        refine ⟨?_, nofun⟩
        rcases List.mem_append.mp hr with hr | hr
        · exact (h.returned r hr).1
        · rw [List.mem_singleton.mp hr]
          show s.current < s.calls.length
          omega }

theorem runCaller_inv (h : Inv s) (hs : s.runCaller = some s') : Inv s' := by
  cases hc : s.caller with
  | idle =>
      unfold runCaller at hs
      rw [hc] at hs
      cases hs
  | callSingle => exact callSingle_inv h hc hs
  | resetExit =>
      unfold runCaller at hs
      simp only [hc] at hs
      cases hs
      exact resetExit_inv h hc
  | growThreads => exact growThreads_inv h hc hs
  | spawnThread i new => exact spawnThread_inv h hc hs
  | testContexts => exact testContexts_inv h hc hs
  | pollTask i j running => exact pollTask_inv h hc hs
  | lockTask i j => exact lockTask_inv h hc hs
  | assignTask i j => exact assignTask_inv h hc hs
  | notifyTask i j => exact notifyTask_inv h hc hs
  | unlockTask i j => exact unlockTask_inv h hc hs
  | testExit =>
      have hplace := h.place
      unfold Place at hplace
      rw [hc] at hplace
      unfold runCaller at hs
      simp only [hc] at hs
      cases hs
      by_cases hexit : s.exitRun = true
      · rw [if_pos hexit]
        exact h.goto (by rw [hc]; rfl) (by rw [hc]; rfl) nofun hplace
      · rw [if_neg hexit]
        exact h.goto (by rw [hc]; rfl) (by rw [hc]; rfl) nofun hplace
  | setExit =>
      unfold runCaller at hs
      simp only [hc] at hs
      cases hs
      exact setExit_inv h hc
  | notifyAll i => exact notifyAll_inv h hc hs
  | joinThread i => exact joinThread_inv h hc hs

/-- A new call has not handed out anything. -/
theorem quota_call {tasks : List Status} {pc : CallerPc} {returned : List (Nat × Bool)}
    (hidle : s.caller.handed = none) (hpc : pc.handed.getD tasks.length = 0) (k : Nat) :
    ({ s with calls := s.calls ++ [tasks], caller := pc, returned } : ThreadPool).quota k =
      s.quota k := by
  rw [quota_done (.inl hidle)]
  by_cases hk : k = s.calls.length
  · subst hk
    unfold quota
    show (match (s.calls ++ [tasks])[s.calls.length]? with
      | none => 0
      | some ts => if s.calls.length + 1 = (s.calls ++ [tasks]).length then
          pc.handed.getD ts.length else ts.length) = _
    rw [List.getElem?_concat_length, List.getElem?_eq_none (Nat.le_refl _)]
    simp only [List.length_append, List.length_singleton, if_true]
    exact hpc
  · rw [quota_done (.inr _)]
    · show (((s.calls ++ [tasks])[k]?).map List.length).getD 0 = _
      rcases Nat.lt_or_ge k s.calls.length with hlt | hge
      · rw [List.getElem?_append_left hlt]
      · rw [List.getElem?_eq_none hge, List.getElem?_eq_none (by simp; omega)]
    · show k + 1 ≠ (s.calls ++ [tasks]).length
      rw [List.length_append, List.length_singleton]
      omega

/-- The call has begun. -/
theorem Inv.call {tasks : List Status} (pc : CallerPc) (returned : List (Nat × Bool))
    (h : Inv s) (hc : s.caller = .idle) (hpc : pc.handed.getD tasks.length = 0)
    (harmed : pc.armed = false)
    (hplace : Place { s with calls := s.calls ++ [tasks], caller := pc, returned })
    (hret : ∀ r ∈ returned, r ∈ s.returned ∨ (r.1 = s.calls.length ∧ pc.handed = none)) :
    Inv { s with calls := s.calls ++ [tasks], caller := pc, returned } := by
  have hidle := h.books.idle (by rw [hc]; rfl)
  exact
    { books :=
        { sound := h.books.sound
          held := fun w x t hw ht => by
            rw [hidle w x hw] at ht
            cases ht
          unique := h.books.unique
          unheld := by
            intro t ht
            rw [quota_call (by rw [hc]; rfl) hpc]
            exact h.books.unheld t ht }
      crew := ⟨h.crew.made, h.crew.joined, fun hexit _ => h.crew.exit hexit (by rw [hc]; rfl),
        fun ha => absurd (harmed.symm.trans ha) Bool.false_ne_true, Crew.no_holders hidle⟩
      place := hplace
      nodup := h.nodup
      pos := h.pos
      clean := h.clean
      returned := by
        intro r hr
        show r.1 < (s.calls ++ [tasks]).length ∧
          (pc.handed.isSome → r.1 + 1 < (s.calls ++ [tasks]).length)
        rw [List.length_append, List.length_singleton]
        rcases hret r hr with hr | ⟨hr, hnone⟩
        · have := (h.returned r hr).1
          exact ⟨by omega, fun _ => by omega⟩
        · rw [hnone]
          exact ⟨by omega, nofun⟩ }

theorem callSyncRun_inv (h : Inv s) (hc : s.caller = .idle) (tasks : List Status) :
    Inv (s.callSyncRun tasks) := by
  have hplace := h.place
  unfold Place at hplace
  rw [hc] at hplace
  obtain ⟨hmanned, hpair⟩ := hplace
  have htasks : ∀ pc, ({ s with calls := s.calls ++ [tasks], caller := pc } : ThreadPool).tasks =
      tasks := by
    intro pc
    show ((s.calls ++ [tasks]).getLast?).getD [] = tasks
    rw [List.getLast?_concat]
    rfl
  unfold callSyncRun
  match tasks, htasks with
  | [], htasks =>
      refine h.call .idle (s.returned ++ [_]) hc rfl rfl ⟨hmanned, hpair⟩
        fun r hr => ?_
      rcases List.mem_append.mp hr with hr | hr
      · exact .inl hr
      · rw [List.mem_singleton.mp hr]
        refine .inr ⟨?_, rfl⟩
        show (s.calls ++ [[]]).length - 1 = s.calls.length
        rw [List.length_append]
        rfl
  | [a], htasks =>
      refine h.call .callSingle s.returned hc rfl rfl ⟨hmanned, hpair, ?_⟩ fun r hr => .inl hr
      rw [htasks]
      rfl
  | a :: b :: rest, htasks =>
      refine h.call .resetExit s.returned hc rfl rfl ⟨hmanned, hpair, ?_⟩ fun r hr => .inl hr
      rw [htasks]
      simp

theorem step_inv {e : Event} (h : Inv s) (hs : Step s e s') : Inv s' := by
  unfold Step step at hs
  cases e with
  | syncRun tasks =>
      simp only at hs
      split at hs
      · rename_i hc
        cases hs
        exact callSyncRun_inv h hc tasks
      · cases hs
  | clearThreadPool =>
      simp only at hs
      split at hs
      · rename_i hc
        cases hs
        have hplace := h.place
        unfold Place at hplace
        rw [hc] at hplace
        exact h.goto (by rw [hc]; rfl) (by rw [hc]; rfl) nofun hplace
      · cases hs
  | caller => exact runCaller_inv h hs
  | worker w => exact runWorker_inv h hs
  | spurious w =>
      cases hs
      exact wake_inv h w

theorem init_inv {maxThreadNum : Nat} (hpos : 0 < maxThreadNum) : Inv (init maxThreadNum) where
  books :=
    { sound := fun _ _ hw => by cases hw
      held := fun _ _ _ hw => by cases hw
      unique := fun _ _ _ _ _ hw => by cases hw
      unheld := by
        intro t _
        exact ⟨rfl, rfl⟩ }
  crew := ⟨nofun, fun _ _ hw => (by cases hw), nofun, nofun, fun _ _ hw => (by cases hw)⟩
  place := ⟨nofun, .inl rfl⟩
  nodup := List.nodup_nil
  pos := hpos
  clean := rfl
  returned := nofun

theorem run_inv {maxThreadNum : Nat} (hpos : 0 < maxThreadNum) {es : List Event}
    (h : Run Step (init maxThreadNum) es s) : Inv s :=
  h.state_inv (I := Inv) (init_inv hpos) fun _ _ _ => step_inv

/-! ## What has happened when `SyncRun` comes back -/

theorem Inv.count_returned (hinv : Inv s) {k : Nat} {ok : Bool} {tasks : List Status}
    (hret : (k, ok) ∈ s.returned) (htasks : s.calls[k]? = some tasks) (i : Nat) :
    s.started.count (k, i) = (if i < tasks.length then 1 else 0) ∧
      s.finished.count (k, i) = (if i < tasks.length then 1 else 0) := by
  obtain ⟨hk, hdone⟩ := hinv.returned _ hret
  have hquota : s.quota k = tasks.length := by
    rw [quota_done, htasks]
    · rfl
    · cases hh : s.caller.handed with
      | none => exact .inl rfl
      | some j => exact .inr (hdone (by rw [hh]; rfl)).ne
  have hunheld : Unheld s (k, i) := by
    intro w x hw ht
    obtain ⟨h1, h2, -⟩ := hinv.books.held w x _ hw ht
    have hsome : s.caller.handed.isSome := by
      cases hh : s.caller.handed with
      | none =>
          rw [hh] at h2
          exact absurd h2 (Nat.not_lt_zero _)
      | some j => rfl
    exact (hdone hsome).ne h1
  rw [← hquota]
  exact hinv.books.unheld (k, i) hunheld

/-- A call that has come back has run each of its tasks to the end once, and no worker has
followed a null pointer. -/
theorem syncRun_runs_once {maxThreadNum : Nat} (hpos : 1 ≤ maxThreadNum) {es : List Event}
    {s : ThreadPool} (h : Run Step (init maxThreadNum) es s) {k : Nat} {ok : Bool}
    {tasks : List Status} (hret : (k, ok) ∈ s.returned) (htasks : s.calls[k]? = some tasks) :
    (∀ i, s.started.count (k, i) = (if i < tasks.length then 1 else 0) ∧
      s.finished.count (k, i) = (if i < tasks.length then 1 else 0)) ∧ s.fault = false := by
  have hinv := run_inv hpos h
  exact ⟨hinv.count_returned hret htasks, hinv.clean⟩

/-- One worker runs two tasks. -/
def twoTasks : List Event :=
  .syncRun [.success, .fail] :: List.replicate 10 .caller ++ List.replicate 7 (.worker 0) ++
    List.replicate 7 .caller ++ List.replicate 5 (.worker 0) ++ List.replicate 2 .caller

theorem twoTasks_run : ∃ s, Run Step (init 1) twoTasks s ∧ s.returned = [(0, true)] ∧
    s.calls = [[.success, .fail]] := by
  have heval : (Run.exec step (fun _ _ => True) (init 1) twoTasks).map
      (fun s => (s.returned, s.calls)) = some ([(0, true)], [[.success, .fail]]) := by
    decide +kernel
  obtain ⟨s, hs, heq⟩ := Option.map_eq_some_iff.mp heval
  exact ⟨s, (Run.of_exec hs).imp fun _ _ _ h => h.1, Prod.mk.inj heq⟩

theorem syncRun_runs_once_two : ∃ s, Run Step (init 1) twoTasks s ∧ (0, true) ∈ s.returned ∧
    s.started.count (0, 0) = 1 ∧ s.finished.count (0, 1) = 1 := by
  obtain ⟨s, hrun, hret, hcalls⟩ := twoTasks_run
  have hmem : (0, true) ∈ s.returned := by
    rw [hret]
    exact .head _
  obtain ⟨hcount, -⟩ := syncRun_runs_once (Nat.le_refl 1) hrun hmem
    (show s.calls[0]? = some [.success, .fail] by rw [hcalls]; rfl)
  exact ⟨s, hrun, hmem, (hcount 0).1, (hcount 1).2⟩

end ThreadPool

end Ccbase.Testing
