import Ccbase.Lib.Run
import Ccbase.Nice.HQueueAnswers
import Ccbase.Nice.HQueueThreadsRun

/-!
# `HQueue` under any interleaving

In every run that links fewer than `2 ^ 32` values none is lost and none comes twice. A `Dequeue`
that returns null has found the list empty after its call. The values come in the order in which
they were linked exactly if each of them was linked behind a node of the list; with one thread that
enqueues this is always so.
-/

namespace Ccbase.Nice

open Ccbase.Lib

variable {n : Nat} {T : Type}

/-- The values of the nodes behind node `i`. -/
def HQueue.Behind (q : HQueue T) (i : Nat) (l : List T) : Prop :=
  ∃ ps, Links q.link i ps none ∧ ps.map (fun i => (q.nodes i).value) = l.map some

/-- The values that the list from `qhead` on holds. -/
def HQueue.Contents (q : HQueue T) (l : List T) : Prop :=
  ∃ d, q.qhead.index = some d ∧ q.Behind d l

namespace Threads

variable {s s' : Threads n T} {g g' : Layout n} {u v : Fin n} {e : Event n T}

/-! ## All values are there -/

/-- The run of the threads on a new queue. -/
abbrev Reaches (q : HQueue T) (es : List (Event n T)) (s : Threads n T) : Prop :=
  Run (fun s e s' => s.step e = some s') (start n q) es s

/-- A run from an execution. -/
theorem exists_reaches (sz : Int) (es : List (Event n T)) (P : Threads n T → Prop)
    [DecidablePred P] (h : ((HQueue.init sz).bind fun q =>
      Run.exec step (fun _ _ => True) (start n q) es).any (fun s => decide (P s)) = true) :
    ∃ q s, HQueue.init sz = some q ∧ Reaches q es s ∧ P s := by
  cases hq : (HQueue.init sz : Option (HQueue T)) with
  | none =>
      rw [hq] at h
      cases h
  | some q =>
      rw [hq] at h
      obtain ⟨s, hrun, hs⟩ := Run.exists_of_exec h
      exact ⟨q, s, rfl, hrun.imp fun _ _ _ h => h.1, hs⟩

/-- An `Enqueue` on an empty queue of nodes not yet used, if no other thread runs. -/
def enqueueAlone (u : Fin n) (t : T) : List (Event n T) :=
  .enqueue u t :: List.replicate 11 (.run u)

/-- A `Dequeue` that finds a value, if no other thread runs. -/
def dequeueAlone (u : Fin n) : List (Event n T) := .dequeue u :: List.replicate 8 (.run u)

/-- Thread `v` sleeps before the exchange in its `Enqueue`. Meanwhile `u` uses the node again behind
which the new one is to come. -/
def staleRun (u v : Fin n) : List (Event n Nat) :=
  enqueueAlone u 7 ++ (.enqueue v 8 :: List.replicate 8 (.run v)) ++ enqueueAlone u 9 ++
    dequeueAlone u ++ dequeueAlone u ++ (.enqueue u 10 :: List.replicate 10 (.run u)) ++
    List.replicate 3 (.run v)

/-- Every state of the run has a layout. -/
theorem Reaches.inv {sz : Int} {q : HQueue T} (hq : HQueue.init sz = some q)
    {es : List (Event n T)} (hrun : Reaches q es s) (hlt : s.linked.length < 2 ^ 32) :
    ∃ g, s.Inv g := by
  have hrun' := hrun.with_final (Q := fun s => s.linked.length < 2 ^ 32)
    (fun s e s' hstep hs => Nat.lt_of_le_of_lt (step_linked hstep).length_le hs) hlt
  refine (hrun'.state_inv (I := fun s => s.linked.length < 2 ^ 32 → ∃ g, s.Inv g)
    (fun _ => ⟨_, Inv.start hq⟩) fun s e s' ih hstep hs => ?_) hlt
  have hs₀ := Nat.lt_of_le_of_lt (step_linked hstep.1).length_le hs
  obtain ⟨g, hg⟩ := ih hs₀
  obtain ⟨g', hg', -⟩ := hg.step hs₀ hstep.1
  exact ⟨g', hg'⟩

theorem exists_map_some {l : List (Option T)} (h : none ∉ l) : ∃ l' : List T, l = l'.map some := by
  induction l with
  | nil => exact ⟨[], rfl⟩
  | cons x l ih =>
      obtain ⟨l', hl'⟩ := ih fun hmem => h (List.mem_cons_of_mem x hmem)
      cases x with
      | none => exact absurd List.mem_cons_self h
      | some t => exact ⟨t :: l', by rw [hl']; rfl⟩

/-- The values of the nodes in use are not null. -/
theorem Shape.none_notMem_count (h : s.Shape g) :
    none ∉ (s.taken : Multiset (Option T)) + (g.list.map s.value : Multiset (Option T)) +
      ∑ u, ((g.behind u).map s.value : Multiset (Option T)) := by
  rw [← h.count]
  simp

theorem Shape.none_notMem_content (h : s.Shape g) : none ∉ s.content g := by
  intro hmem
  refine h.none_notMem_count (Multiset.mem_add.mpr (Or.inl ?_))
  rw [Multiset.coe_add]
  exact hmem

theorem Shape.none_notMem_behind (h : s.Shape g) (u : Fin n) :
    none ∉ (g.behind u).map s.value := by
  intro hmem
  exact h.none_notMem_count (Multiset.mem_add.mpr (Or.inr
    (Multiset.mem_sum.mpr ⟨u, Finset.mem_univ u, Multiset.mem_coe.mpr hmem⟩)))

theorem Shape.contents (h : s.Shape g) {l : List T} (hl : g.list.map s.value = l.map some) :
    s.queue.Contents l :=
  ⟨g.dummy, by rw [h.head], g.list, h.links, hl⟩

/-- The values that were taken and those of the list, without the null that they never are. -/
theorem Shape.exists_content (h : s.Shape g) : ∃ taken contents : List T,
    s.taken = taken.map some ∧ g.list.map s.value = contents.map some := by
  have hnone := h.none_notMem_content
  obtain ⟨taken, htaken⟩ := exists_map_some fun hmem => hnone (List.mem_append_left _ hmem)
  obtain ⟨contents, hcontents⟩ := exists_map_some fun hmem => hnone (List.mem_append_right _ hmem)
  exact ⟨taken, contents, htaken, hcontents⟩

theorem Reaches.answered {q : HQueue T} {es : List (Event n T)} (hrun : Reaches q es s) :
    s.Answered :=
  hrun.state_inv (answered_start n q) fun _ _ _ h hstep => h.step hstep

/-- Any number of threads, in any order: each value whose node was linked has been taken once, is
in the list, or waits behind the complete node of an `Enqueue` that has not linked it. These are
the values of the calls that were answered with true, and the values taken are those returned, but
for the calls that still run. -/
theorem shared_queue_keeps_values {sz : Int} {q : HQueue T} (hq : HQueue.init sz = some q)
    {es : List (Event n T)} (hrun : Reaches q es s) (hlt : s.linked.length < 2 ^ 32) :
    s.Answered ∧ ∃ taken contents : List T, ∃ waiting : Fin n → List T,
      s.taken = taken.map some ∧ s.queue.Contents contents ∧
      (∀ u i, (s.pc u).ready = some i → s.queue.Behind i (waiting u)) ∧
      (∀ u, (s.pc u).ready = none → waiting u = []) ∧
      (s.linked : Multiset T) = taken + contents + ∑ u, (waiting u : Multiset T) := by
  obtain ⟨g, hg⟩ := hrun.inv hq hlt
  obtain ⟨taken, contents, htaken, hcontents⟩ := hg.shape.exists_content
  choose waiting hwaiting using fun u => exists_map_some (hg.shape.none_notMem_behind u)
  refine ⟨hrun.answered, taken, contents, waiting, htaken, hg.shape.contents hcontents,
    fun u i hi => ?_, fun u hu => ?_, ?_⟩
  · exact ⟨g.behind u, hg.shape.ready u i hi, hwaiting u⟩
  · have hnil := hwaiting u
    rw [hg.shape.single u hu] at hnil
    exact List.map_eq_nil_iff.mp hnil.symm
  · have hcount := hg.shape.count
    have hsum : ∑ u, ((g.behind u).map s.value : Multiset (Option T)) =
        Multiset.map some (∑ u, (waiting u : Multiset T)) := by
      rw [← Multiset.coe_mapAddMonoidHom, map_sum]
      refine Finset.sum_congr rfl fun u _ => ?_
      rw [hwaiting u]
      rfl
    rw [htaken, hcontents, hsum, ← Multiset.map_coe, ← Multiset.map_coe, ← Multiset.map_coe,
      ← Multiset.map_add, ← Multiset.map_add] at hcount
    exact Multiset.map_injective (Option.some_injective T) hcount

/-- A value waits behind the node of an `Enqueue` that has not linked it, although the call that
was to add it has returned true. -/
theorem shared_queue_keeps_values_waiting :
    ∃ (q : HQueue Nat) (s : Threads 2 Nat), HQueue.init 4 = some q ∧ Reaches q (staleRun 0 1) s ∧
      s.linked = [7, 9, 8] ∧ s.returned = [some 7, some 9] ∧
      s.answered = [(7, true), (9, true), (8, true)] ∧
      (s.Answered ∧ ∃ taken contents : List Nat, ∃ waiting : Fin 2 → List Nat,
        s.taken = taken.map some ∧ s.queue.Contents contents ∧
        (∀ u i, (s.pc u).ready = some i → s.queue.Behind i (waiting u)) ∧
        (∀ u, (s.pc u).ready = none → waiting u = []) ∧
        (s.linked : Multiset Nat) = taken + contents + ∑ u, (waiting u : Multiset Nat)) := by
  obtain ⟨q, s, hq, hrun, hlinked, hreturned, hanswered⟩ :=
    exists_reaches 4 (staleRun (0 : Fin 2) 1)
    (fun s => s.linked = [7, 9, 8] ∧ s.returned = [some 7, some 9] ∧
      s.answered = [(7, true), (9, true), (8, true)]) (by decide +kernel)
  exact ⟨q, s, hq, hrun, hlinked, hreturned, hanswered,
    shared_queue_keeps_values hq hrun (by rw [hlinked]; decide)⟩

/-! ## Null means empty -/

/-- What thread `u` knows in a `Dequeue` of the values `l`, which were there at its call. -/
def Emptied (s : Threads n T) (l : List (Option T)) : Pc T → Prop
  | .testHead head _ next => next.index = none → s.queue.qhead = head → l <+: s.taken
  | .freeHead _ ret => ret ≠ none
  | .dequeued ret => ret = none → l <+: s.taken
  | _ => True

theorem Emptied.mono {l : List (Option T)} {p : Pc T} (h : s.Emptied l p)
    (htaken : s.taken <+: s'.taken)
    (hqhead : ∀ head tail next, p = .testHead head tail next → s'.queue.qhead = head →
      s.queue.qhead = head) : s'.Emptied l p := by
  cases p with
  | testHead head tail next =>
      exact fun hnone heq => (h hnone (hqhead head tail next rfl heq)).trans htaken
  | freeHead head ret => exact h
  | dequeued ret => exact fun hnone => (h hnone).trans htaken
  | _ => trivial

theorem Emptied.of_not_settled {l : List (Option T)} {p : Pc T} (h : p.settled = false) :
    s.Emptied l p := by
  cases p with
  | testHead _ _ _ => cases h
  | freeHead _ _ => cases h
  | dequeued _ => cases h
  | _ => trivial

/-- The step of the thread itself. -/
theorem Emptied.run {l : List (Option T)} (h : s.Emptied l (s.pc u)) (hg : s.Inv g)
    (hlt : s.linked.length < 2 ^ 32) (hl : l <+: s.content g) (hrun : s.run u = some s') :
    s'.Emptied l (s'.pc u) := by
  have hlocal := hg.locals u
  cases hpc : s.pc u with
  | readHeadNext head tail =>
      simp only [Threads.run, hpc, Option.some.injEq] at hrun
      subst hrun
      rw [goto_pc_self]
      intro hnone heq
      -- the dummy has no link
      have hlink : s.queue.link g.dummy = none := by
        have heq : s.queue.qhead = head := heq
        rw [← heq, HQueue.target, hg.shape.head] at hnone
        exact hnone
      have hempty : g.list = [] := by
        have hfirst := hg.shape.links.first
        rw [hlink] at hfirst
        cases hlist : g.list with
        | nil => rfl
        | cons b rest =>
            rw [hlist] at hfirst
            cases hfirst
      rw [content, hempty, List.map_nil, List.append_nil] at hl
      exact hl
  | testHead head tail next =>
      rw [hpc] at h hlocal
      obtain ⟨⟨hhead, -, -⟩, -, -⟩ := hlocal
      simp only [Threads.run, hpc, Option.some.injEq] at hrun
      subst hrun
      rw [goto_pc_self]
      by_cases hsame : head.same s.queue.qhead = false
      · rw [if_pos hsame]
        trivial
      · rw [if_neg hsame]
        have hsame' : s.queue.qhead.same head = true := by
          have htrue := of_decide_eq_true (Bool.of_not_eq_false hsame)
          exact decide_eq_true ⟨htrue.1.symm, htrue.2.symm⟩
        have heq := hhead.eq_of_same (hg.shape.qhead_lt hlt) hsame'
        by_cases hidx : head.index = tail.index
        · rw [if_pos hidx]
          by_cases hnext : next.index = none
          · rw [if_pos hnext]
            exact fun _ => h hnext heq
          · rw [if_neg hnext]
            trivial
        · rw [if_neg hidx]
          by_cases hnext : next.index = none
          · rw [if_pos hnext]
            trivial
          · rw [if_neg hnext]
            trivial
  | swingHead head next ret =>
      rw [hpc] at hlocal
      obtain ⟨hfirst, hvalue⟩ := hlocal
      simp only [Threads.run, hpc] at hrun
      by_cases hsame : s.queue.qhead.same head = true
      · rw [if_pos hsame] at hrun
        cases hrun
        rw [goto_pc_self]
        -- the value of a node of the list is not null
        have heq := hfirst.headBefore.eq_of_same (hg.shape.qhead_lt hlt) hsame
        obtain ⟨b, hb⟩ := Option.ne_none_iff_exists'.mp hfirst.index
        obtain ⟨rest, hlist⟩ := hg.shape.first_mem heq (hfirst.leads heq) hb
        have hret := hvalue heq
        rw [hb] at hret
        intro hnone
        refine hg.shape.none_notMem_content (List.mem_append_right _ ?_)
        rw [hlist, ← hnone, ← hret]
        exact List.mem_cons_self
      · rw [if_neg hsame] at hrun
        cases hrun
        rw [goto_pc_self]
        trivial
  | freeHead head ret =>
      rw [hpc] at h
      simp only [Threads.run, hpc, Option.some.injEq] at hrun
      subst hrun
      rw [goto_pc_self]
      exact fun hnone => absurd hnone h
  | _ =>
      have hsettled := (run_counts hrun).settled
      rw [hpc] at hsettled
      exact .of_not_settled (hsettled.resolve_left Bool.false_ne_true)

/-- A step of any thread, where `u` does not begin another `Dequeue`. -/
theorem Emptied.step {l : List (Option T)} (h : s.Emptied l (s.pc u)) (hg : s.Inv g)
    (hlt : s.linked.length < 2 ^ 32) (hl : l <+: s.content g) (hne : e ≠ .dequeue u)
    (hstep : s.step e = some s') (hk : Keeps s s' g g' e.thread) : s'.Emptied l (s'.pc u) := by
  by_cases hu : u = e.thread
  · rcases step_cases hstep with ⟨v, t, rfl, -, rfl⟩ | ⟨v, rfl, -, rfl⟩ | ⟨v, rfl, hrun⟩
    · rw [hu, show Event.thread (.enqueue v t) = v from rfl, goto_pc_self]
      trivial
    · exact absurd (congrArg Event.dequeue hu.symm) hne
    · rw [show Event.thread (.run v) = v from rfl] at hu
      subst hu
      exact h.run hg hlt hl hrun
  · have hpc := step_pc hstep hu
    rw [hpc]
    refine h.mono (step_taken hstep) fun head tail next hp heq => ?_
    have hlocal := hg.locals u
    rw [hp] at hlocal
    exact hlocal.1.headBefore.eq_of_eq hk.qhead heq

/-- When a `Dequeue` returns null, all values that were in the list at its call have been taken. -/
theorem null_after_empty {sz : Int} {q : HQueue T} (hq : HQueue.init sz = some q)
    {es es' : List (Event n T)} {s₀ s₁ : Threads n T} (hrun : Reaches q es s₀)
    (hcall : s₀.step (.dequeue u) = some s₁)
    (hrun' : Run (fun s e s' => s.step e = some s') s₁ es' s) (hone : .dequeue u ∉ es')
    (hnull : s.pc u = .dequeued none) (hlt : s.linked.length < 2 ^ 32) :
    ∃ contents : List T, s₀.queue.Contents contents ∧
      s₀.taken ++ contents.map some <+: s.taken := by
  have hle : s₁.linked <+: s.linked := hrun'.state_inv (I := fun s => s₁.linked <+: s.linked)
    List.prefix_rfl fun _ _ _ h hstep => h.trans (step_linked hstep)
  have hlt₁ := Nat.lt_of_le_of_lt hle.length_le hlt
  have hlt₀ := Nat.lt_of_le_of_lt (step_linked hcall).length_le hlt₁
  obtain ⟨g₀, hg₀⟩ := hrun.inv hq hlt₀
  obtain ⟨taken, contents, -, hcontents⟩ := hg₀.shape.exists_content
  refine ⟨contents, hg₀.shape.contents hcontents, ?_⟩
  rw [← hcontents]
  obtain ⟨g₁, hg₁, hk₁⟩ := hg₀.step hlt₀ hcall
  have hfinal := hrun'.with_final (Q := fun s => s.linked.length < 2 ^ 32)
    (fun s e s' hstep hs => Nat.lt_of_le_of_lt (step_linked hstep).length_le hs) hlt
  have hinv := hfinal.inv
    (I := fun es s => Event.dequeue u ∉ es → s.linked.length < 2 ^ 32 →
      ∃ g, s.Inv g ∧ s₀.content g₀ <+: s.content g ∧ s.Emptied (s₀.content g₀) (s.pc u))
    (fun _ _ => by
      refine ⟨g₁, hg₁, hk₁.content, ?_⟩
      rcases step_cases hcall with ⟨v, t, h, -, -⟩ | ⟨v, h, -, rfl⟩ | ⟨v, h, -⟩
      · cases h
      · cases h
        rw [goto_pc_self]
        trivial
      · cases h)
    (fun es s e s' ih hstep hnot hs => by
      rw [List.mem_append, List.mem_singleton, not_or] at hnot
      have hs₂ := Nat.lt_of_le_of_lt (step_linked hstep.1).length_le hs
      obtain ⟨g, hg, hl, hemptied⟩ := ih hnot.1 hs₂
      obtain ⟨g', hg', hk⟩ := hg.step hs₂ hstep.1
      exact ⟨g', hg', hl.trans hk.content,
        hemptied.step hg hs₂ hl (fun heq => hnot.2 heq.symm) hstep.1 hk⟩)
  obtain ⟨g, -, -, hemptied⟩ := hinv hone hlt
  rw [hnull] at hemptied
  exact hemptied rfl

/-- Between the call of thread 1 and its return, thread 0 takes the value. -/
theorem null_after_empty_taken :
    ∃ (q : HQueue Nat) (s₀ s : Threads 2 Nat), HQueue.init 4 = some q ∧
      Reaches q (enqueueAlone 0 7) s₀ ∧ s.pc 1 = .dequeued none ∧
      ∃ contents : List Nat, s₀.queue.Contents contents ∧
        s₀.taken ++ contents.map some <+: s.taken := by
  obtain ⟨q, s₀, hq, hrun, hafter⟩ := exists_reaches 4 (enqueueAlone (0 : Fin 2) 7)
    (fun s : Threads 2 Nat => ((s.step (.dequeue 1)).bind fun s₁ =>
      Run.exec step (fun _ _ => True) s₁ (dequeueAlone 0 ++ List.replicate 4 (.run 1))).any
        (fun s : Threads 2 Nat => decide (s.pc 1 = .dequeued none ∧ s.linked = [7])) = true)
    (by decide +kernel)
  cases hcall : s₀.step (.dequeue 1) with
  | none =>
      rw [hcall] at hafter
      cases hafter
  | some s₁ =>
      rw [hcall, Option.bind_some] at hafter
      obtain ⟨s, hrun', hnull, hlinked⟩ := Run.exists_of_exec hafter
      exact ⟨q, s₀, s, hq, hrun, hnull, null_after_empty hq hrun hcall
        (hrun'.imp fun _ _ _ h => h.1) (by simp [dequeueAlone]) hnull (by rw [hlinked]; decide)⟩

/-! ## First in, first out -/

/-- If all values of the list are in the order of their links, nothing hangs behind a node. -/
theorem Shape.inOrder (h : s.Shape g) (heq : s.content g = s.linked.map some) : s.InOrder g := by
  refine ⟨fun u => ?_, heq⟩
  have hcount := h.count
  rw [← heq, content, ← Multiset.coe_add] at hcount
  have hzero := add_eq_left.mp hcount.symm
  refine List.eq_nil_iff_forall_not_mem.mpr fun a ha => ?_
  have hmem : s.value a ∈ ∑ v, ((g.behind v).map s.value : Multiset (Option T)) :=
    Multiset.mem_sum.mpr ⟨u, Finset.mem_univ u, Multiset.mem_coe.mpr (List.mem_map_of_mem ha)⟩
  rw [hzero] at hmem
  exact Multiset.notMem_zero _ hmem

/-- The values in the order of their links: those that were taken, and then those of the list. -/
def Fifo (s : Threads n T) : Prop :=
  ∃ contents : List T, s.queue.Contents contents ∧
    s.linked.map some = s.taken ++ contents.map some

theorem Shape.fifo_iff (h : s.Shape g) : s.Fifo ↔ s.InOrder g := by
  constructor
  · rintro ⟨contents, ⟨d, hd, ps, hlinks, hvalues⟩, heq⟩
    refine h.inOrder ?_
    rw [h.head] at hd
    cases hd
    rw [heq, content, h.links.unique hlinks, ← hvalues]
    rfl
  · intro hord
    obtain ⟨-, contents, -, hcontents⟩ := h.exists_content
    refine ⟨contents, h.contents hcontents, ?_⟩
    rw [← hord.content, content, hcontents]

/-- A node linked behind one that is not in the list is not at its turn. -/
theorem Inv.stale (h : s.Inv g) (hstep : s.step e = some s') (hfresh : ¬ s.Fresh e.thread)
    (h' : s'.Shape g') : ¬ s'.InOrder g' := by
  intro hord
  refine hfresh fun t i tail next hpc hsame => ?_
  obtain ⟨hnone, -, hcases⟩ := h.link_cases hpc hsame
  rcases hcases with hplace | ⟨v, j, hv, hplace, hj, -⟩
  · exact h.listed.mpr hplace
  · exfalso
    have hs' : ({ s with linked := s.linked ++ [t] }.setQueue (s.queue.setNode (tail.index.getD 0)
        { s.queue.target tail with next := ⟨some i, next.version + 1⟩ })).goto e.thread
          (.swingTail t i tail) = s' := by
      rcases step_cases hstep with ⟨w, x, rfl, hidle, -⟩ | ⟨w, rfl, hidle, -⟩ | ⟨w, rfl, hrun⟩
      · cases hidle.symm.trans hpc
      · cases hidle.symm.trans hpc
      · simp only [Threads.run, show s.pc w = _ from hpc, hsame, if_true] at hrun
        exact Option.some.inj hrun
    have hl := hs' ▸ LinkStep.of_linkNode hpc hnone
    -- the list is what it was, with one value more to come
    obtain ⟨contents, hcontents, heq⟩ := h'.fifo_iff.mpr hord
    have hord' := (hl.shape_hang h.shape hv hplace hj).fifo_iff.mp ⟨contents, hcontents, heq⟩
    have hbehind := hord'.behind v
    rw [LinkStep.hang_behind_target hv] at hbehind
    simp at hbehind

/-- With distinct values: they are first in, first out, exactly if each node was linked behind a
node of the list. -/
theorem fifo_iff_fresh {sz : Int} {q : HQueue T} (hq : HQueue.init sz = some q)
    {es : List (Event n T)} (hrun : Reaches q es s) (hlt : s.linked.length < 2 ^ 32)
    (hnd : s.called.Nodup) : s.Fifo ↔
      Run (fun s e s' => s.step e = some s' ∧ s.Fresh e.thread) (start n q) es s := by
  have hlinked : s.linked.Nodup := Multiset.coe_nodup.mp
    (Multiset.nodup_of_le hrun.answered.linked_le hnd)
  have hback : ∀ (s : Threads n T) e s', s.step e = some s' →
      s'.linked.length < 2 ^ 32 ∧ s'.linked.Nodup → s.linked.length < 2 ^ 32 ∧ s.linked.Nodup :=
    fun s e s' hstep hs => ⟨Nat.lt_of_le_of_lt (step_linked hstep).length_le hs.1,
      hs.2.sublist (step_linked hstep).sublist⟩
  have hrun' := hrun.with_final hback ⟨hlt, hlinked⟩
  have hkept := hrun'.kept_iff (I := fun s => ∃ g, s.Inv g) (P := Fifo)
    (G := fun s e => s.Fresh e.thread)
    (fun s e s₁ s₂ h₁ h₂ => Option.some.inj (h₁.1.symm.trans h₂.1)) ⟨_, Inv.start hq⟩
    ⟨[], (Inv.start hq).shape.contents rfl, rfl⟩
    (fun s e s' hinv hstep => by
      obtain ⟨g, hg⟩ := hinv
      obtain ⟨hstep, hlt', hnd'⟩ := hstep
      obtain ⟨g', hg', hk⟩ := hg.step (hback s e s' hstep ⟨hlt', hnd'⟩).1 hstep
      refine ⟨⟨g', hg'⟩, ?_⟩
      rw [hg'.shape.fifo_iff, hg.shape.fifo_iff]
      constructor
      · intro hord
        refine ⟨hk.back hnd' hord, ?_⟩
        by_contra hfresh
        exact hg.stale hstep hfresh hg'.shape hord
      · rintro ⟨hord, hfresh⟩
        exact hk.inOrder hfresh hord)
  refine hkept.2.trans ⟨fun h => h.imp fun _ _ _ h => ⟨h.1.1, h.2⟩, fun h => ?_⟩
  have h' := h.with_final (fun s e s' hstep => hback s e s' hstep.1) ⟨hlt, hlinked⟩
  exact h'.imp fun _ _ _ h => ⟨⟨h.1.1, h.2⟩, h.1.2⟩

theorem fifo_iff_fresh_two :
    ∃ (q : HQueue Nat) (s : Threads 2 Nat), HQueue.init 4 = some q ∧ s.linked = [7, 9, 8] ∧
      (s.Fifo ↔ Run (fun s e s' => s.step e = some s' ∧ s.Fresh e.thread) (start 2 q)
        (staleRun 0 1) s) := by
  obtain ⟨q, s, hq, hrun, hlinked, hcalled⟩ := exists_reaches 4 (staleRun (0 : Fin 2) 1)
    (fun s => s.linked = [7, 9, 8] ∧ s.called = [7, 8, 9, 10]) (by decide +kernel)
  exact ⟨q, s, hq, hlinked,
    fifo_iff_fresh hq hrun (by rw [hlinked]; decide) (by rw [hcalled]; decide)⟩

/-- The `Enqueue` of thread 1 has returned true, and its next `Dequeue` returns null. -/
theorem stale_link_hides_value :
    ∃ (q : HQueue Nat) (s : Threads 2 Nat), HQueue.init 4 = some q ∧
      Reaches q (staleRun 0 1 ++ .dequeue 1 :: List.replicate 4 (.run 1)) s ∧
      s.linked = [7, 9, 8] ∧ s.taken = [some 7, some 9] ∧ s.pc 1 = .dequeued none := by
  exact exists_reaches 4 _ (fun s => s.linked = [7, 9, 8] ∧ s.taken = [some 7, some 9] ∧
    s.pc 1 = .dequeued none) (by decide +kernel)

/-! ## One thread that enqueues -/

theorem value_of_ready {p : Pc T} {i : Nat} (h : p.ready = some i) : p.stage.value ≠ [] := by
  cases p <;> first | exact List.cons_ne_nil _ _ | cases h

theorem Inv.fresh_of_one (h : s.Inv g) {p : Fin n}
    (hone : ∀ v, v ≠ p → (s.pc v).stage.value = []) : s.Fresh u := by
  intro t i tail next hpc hsame
  obtain ⟨-, -, hcases⟩ := h.link_cases hpc hsame
  rcases hcases with hplace | ⟨v, j, hv, -, hj, -⟩
  · exact h.listed.mpr hplace
  · have hu : u = p := by
      by_contra hne
      have hnone := hone u hne
      rw [hpc] at hnone
      cases hnone
    exact absurd (hone v fun heq => hv (heq.trans hu.symm)) (value_of_ready hj)

/-- If only one thread enqueues, the values are taken in the order of its calls: those that it was
answered with true, and that of a call that has linked it and still runs. -/
theorem one_producer_fifo {sz : Int} {q : HQueue T} (hq : HQueue.init sz = some q)
    {es : List (Event n T)} (hrun : Reaches q es s) (hlt : s.linked.length < 2 ^ 32) {p : Fin n}
    (hone : ∀ u t, .enqueue u t ∈ es → u = p) :
    s.Fifo ∧ s.called = s.answered.map Prod.fst ++ (s.pc p).stage.value ∧
      s.linked = s.history.answers true ++ (s.pc p).stage.accepting ∧ s.Answered := by
  have hrun' := hrun.with_final (Q := fun s => s.linked.length < 2 ^ 32)
    (fun s e s' hstep hs => Nat.lt_of_le_of_lt (step_linked hstep).length_le hs) hlt
  have hinv := hrun'.inv
    (I := fun es s => (∀ u t, Event.enqueue u t ∈ es → u = p) → s.linked.length < 2 ^ 32 →
      s.OnlyFrom p ∧ ∃ g, s.Inv g ∧ s.InOrder g)
    (fun _ _ => ⟨onlyFrom_start q p, _, Inv.start hq, fun _ => rfl, rfl⟩)
    (fun es s e s' ih hstep hes hs => by
      have hs₂ := Nat.lt_of_le_of_lt (step_linked hstep.1).length_le hs
      obtain ⟨honly, g, hg, hord⟩ :=
        ih (fun u t hmem => hes u t (List.mem_append_left _ hmem)) hs₂
      obtain ⟨g', hg', hk⟩ := hg.step hs₂ hstep.1
      refine ⟨honly.step hstep.1 fun u t heq => hes u t ?_, g', hg',
        hk.inOrder (hg.fresh_of_one honly.others) hord⟩
      rw [heq]
      simp)
  obtain ⟨honly, g, hg, hord⟩ := hinv hone hlt
  exact ⟨hg.shape.fifo_iff.mpr hord, honly.called, honly.linked, hrun.answered⟩

/-- A consumer runs after the first of three calls, and the last one finds no free node. -/
theorem one_producer_fifo_two :
    ∃ (q : HQueue Nat) (s : Threads 2 Nat), HQueue.init 3 = some q ∧ s.returned = [some 7] ∧
      s.answered = [(7, true), (9, true), (5, false)] ∧
      (s.Fifo ∧ s.called = s.answered.map Prod.fst ++ (s.pc 0).stage.value ∧
        s.linked = s.history.answers true ++ (s.pc 0).stage.accepting ∧ s.Answered) := by
  obtain ⟨q, s, hq, hrun, hreturned, hanswered, hlinked⟩ := exists_reaches 3
    (enqueueAlone (0 : Fin 2) 7 ++ dequeueAlone 1 ++ enqueueAlone 0 9 ++
      .enqueue 0 5 :: List.replicate 7 (.run 0))
    (fun s => s.returned = [some 7] ∧ s.answered = [(7, true), (9, true), (5, false)] ∧
      s.linked = [7, 9])
    (by decide +kernel)
  refine ⟨q, s, hq, hreturned, hanswered,
    one_producer_fifo hq hrun (by rw [hlinked]; decide) (p := 0) ?_⟩
  intro u t hmem
  simp [enqueueAlone, dequeueAlone] at hmem
  rcases hmem with ⟨rfl, -⟩ | ⟨rfl, -⟩ | ⟨rfl, -⟩ <;> rfl

end Threads

end Ccbase.Nice
