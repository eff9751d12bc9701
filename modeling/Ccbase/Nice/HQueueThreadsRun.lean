import Ccbase.Nice.HQueueThreadsSteps

/-!
# What a step of the threads of an `HQueue` keeps

The pointers of the code have versions of 32 bits. As long as fewer than `2 ^ 32` values have been
linked, the exchanges of `qhead` and `qtail` see each change.
-/

namespace Ccbase.Nice

open Ccbase.Lib

variable {n : Nat} {T : Type}

namespace Threads

variable {s s' : Threads n T} {g : Layout n} {u : Fin n}

/-! ## The steps, one by one -/

theorem Shape.length_le (h : s.Shape g) : s.taken.length + g.list.length ≤ s.linked.length := by
  have hcard := congrArg Multiset.card h.count
  simp only [Multiset.card_add, Multiset.coe_card, List.length_map] at hcard
  omega

theorem Shape.qhead_lt (h : s.Shape g) (hlt : s.linked.length < 2 ^ 32) :
    s.queue.qhead.version < 2 ^ 32 := by
  have hle := h.length_le
  rw [h.head]
  show s.taken.length < 2 ^ 32
  omega

theorem Shape.qtail_lt (h : s.Shape g) (hlt : s.linked.length < 2 ^ 32) :
    s.queue.qtail.version < 2 ^ 32 := by
  have hle := h.length_le
  obtain ⟨pre, a, post, hlist, hq⟩ := h.tail
  have hlen := congrArg List.length hlist
  rw [List.length_cons, List.length_append, List.length_cons] at hlen
  rw [hq]
  show s.taken.length + pre.length < 2 ^ 32
  omega

theorem Shape.link_of_split (h : s.Shape g) {pre post : List Nat} {a : Nat}
    (hlist : g.dummy :: g.list = pre ++ a :: post) : s.queue.link a = post.head? := by
  have hlinks := h.links
  cases pre with
  | nil =>
      obtain ⟨rfl, rfl⟩ := List.cons.inj hlist
      simpa using hlinks.first
  | cons c pre =>
      obtain ⟨-, hrest⟩ := List.cons.inj hlist
      rw [hrest] at hlinks
      simpa using hlinks.mem_next

/-- `qtail` is moved to the node that its own one is linked to. -/
theorem Shape.tailMoves (h : s.Shape g) (hlt : s.linked.length < 2 ^ 32) {tail : Pointer} {b : Nat}
    (hbefore : tail.Before s.queue.qtail)
    (hlink : s.queue.qtail = tail → s.queue.link (tail.index.getD 0) = some b)
    (hq : s'.queue.qtail = s.queue.qtail.exchange tail ⟨some b, tail.version + 1⟩) :
    TailMoves s s' g := by
  rw [TailMoves, hq, Pointer.exchange]
  by_cases hsame : s.queue.qtail.same tail = true
  · rw [if_pos hsame]
    have heq := hbefore.eq_of_same (h.qtail_lt hlt) hsame
    have hnext := hlink heq
    obtain ⟨pre, a, post, hlist, hqt⟩ := h.tail
    rw [← heq, hqt] at hnext
    rw [show (Option.getD (some a) 0) = a from rfl, h.link_of_split hlist] at hnext
    cases post with
    | nil => cases hnext
    | cons c post =>
        cases hnext
        refine Or.inr ⟨pre, a, b, post, hlist, hqt, ?_⟩
        rw [← heq, hqt]
  · rw [if_neg hsame]
    exact Or.inl rfl

/-- The thread goes on, and at most `qtail` changes. -/
theorem Inv.quiet (h : s.Inv g) {p p' : Pc T} (hpc : s.pc u = p)
    (hpc' : s'.pc = Function.update s.pc u p')
    (hnodes : s'.queue.nodes = s.queue.nodes) (hqhead : s'.queue.qhead = s.queue.qhead)
    (htaken : s'.taken = s.taken) (hlinked : s'.linked = s.linked) (ht : TailMoves s s' g)
    (hroot : p'.root = p.root) (hready : p'.ready = p.ready) (hfilled : p'.filled = p.filled)
    (hlocal : (∀ a, s.Seen g u a → s'.Seen g u a) → s'.LocalOk g u p') :
    ∃ g', s'.Inv g' ∧ Keeps s s' g g' u := by
  rw [← hpc] at hroot hready hfilled
  have hself : s'.pc u = p' := by
    rw [hpc', Function.update_self]
  have ho : OwnStep s s' u :=
    { pc := fun v hv => by rw [hpc', Function.update_of_ne hv]
      root := by rw [hself, hroot]
      nodes := fun a _ => by rw [hnodes]
      free := fun a => by rw [hnodes]
      qhead := hqhead
      taken := htaken
      linked := hlinked }
  have hlink : ∀ a, s'.queue.link a = s.queue.link a := fun a => by
    rw [HQueue.link, HQueue.link, hnodes]
  have hkeep : (s'.pc u).ready = none →
      (s.pc u).ready = none ∧ ∀ a, s'.queue.link a = s.queue.link a := by
    rw [hself, hready]
    exact fun hnone => ⟨hnone, hlink⟩
  have hshape : s'.Shape g := by
    refine ho.shape h.shape ht ?_ ?_ ?_
    · rw [hself, hready]
      exact h.shape.single u
    · rw [hself, hready]
      exact fun i hi => (h.shape.ready u i hi).congr fun a _ => hlink a
    · rw [hself, hfilled]
      intro i t hi
      rw [value, hnodes]
      exact h.shape.filled u i t hi
  have hk := ho.keeps h.shape ht hkeep
  refine ⟨g, h.of_keeps hshape hk ?_, hk⟩
  rw [hself]
  exact hlocal fun a ha => ho.seen h.shape hkeep ha

/-- The thread only goes on. -/
theorem Inv.goto (h : s.Inv g) {p p' : Pc T} (hpc : s.pc u = p) (hroot : p'.root = p.root)
    (hready : p'.ready = p.ready) (hfilled : p'.filled = p.filled)
    (hlocal : (∀ a, s.Seen g u a → (s.goto u p').Seen g u a) → (s.goto u p').LocalOk g u p') :
    ∃ g', (s.goto u p').Inv g' ∧ Keeps s (s.goto u p') g g' u :=
  h.quiet hpc rfl rfl rfl rfl rfl (Or.inl rfl) hroot hready hfilled hlocal

/-- Only the thread's own node changes, and nothing hangs behind it. -/
theorem Inv.write (h : s.Inv g) {p : Pc T} {i : Nat} {node : HQNode T}
    (hold : (s.pc u).root = some i) (hready : (s.pc u).ready = none) (hroot : p.root = some i)
    (hfree : node.free = (s.queue.nodes i).free)
    (hnext : p.ready = none → node.next = (s.queue.nodes i).next)
    (hlast : p.ready = none ∨ p.ready = some i ∧ node.next.index = none)
    (hfilled : ∀ j t, p.filled = some (j, t) → j = i ∧ node.value = some t)
    (hlocal : ∀ s' : Threads n T, s'.LocalOk g u p) :
    ∃ g', ((s.setQueue (s.queue.setNode i node)).goto u p).Inv g' ∧
      Keeps s ((s.setQueue (s.queue.setNode i node)).goto u p) g g' u := by
  have hbehind := h.shape.single u hready
  have hnode : (s.queue.setNode i node).nodes i = node := Function.update_self ..
  have hother : ∀ a, a ≠ i → (s.queue.setNode i node).nodes a = s.queue.nodes a :=
    fun a ha => Function.update_of_ne ha ..
  have ho : OwnStep s ((s.setQueue (s.queue.setNode i node)).goto u p) u :=
    { pc := fun v hv => goto_pc_of_ne _ hv _
      root := by rw [goto_pc_self, hroot, hold]
      nodes := fun a ha => hother a fun heq => ha (by rw [heq, hold])
      free := fun a => by
        show ((s.queue.setNode i node).nodes a).free = _
        by_cases ha : a = i
        · rw [ha, hnode, hfree]
        · rw [hother a ha]
      qhead := rfl
      taken := rfl
      linked := rfl }
  have hkeep : (((s.setQueue (s.queue.setNode i node)).goto u p).pc u).ready = none →
      (s.pc u).ready = none ∧
        ∀ a, (s.queue.setNode i node).link a = s.queue.link a := by
    rw [goto_pc_self]
    refine fun hnone => ⟨hready, fun a => ?_⟩
    by_cases ha : a = i
    · rw [ha, HQueue.link, hnode, hnext hnone]
      rfl
    · rw [HQueue.link, hother a ha]
      rfl
  have hshape := ho.shape h.shape (Or.inl rfl) (fun _ => hbehind) (by
      rw [goto_pc_self, hbehind]
      intro j hj
      rcases hlast with hnone | ⟨hsome, hnil⟩
      · rw [hnone] at hj
        cases hj
      · rw [hsome] at hj
        cases hj
        show ((s.queue.setNode i node).nodes i).next.index = none
        rw [hnode, hnil]) (by
      rw [goto_pc_self]
      intro j t hj
      obtain ⟨rfl, hvalue⟩ := hfilled j t hj
      show ((s.queue.setNode j node).nodes j).value = some t
      rw [hnode, hvalue])
  have hk := ho.keeps h.shape (Or.inl rfl) hkeep
  refine ⟨g, h.of_keeps hshape hk ?_, hk⟩
  rw [goto_pc_self]
  exact hlocal _

theorem Inv.claim (h : s.Inv g) {t : T} {again : Bool} {i : Nat}
    (hpc : s.pc u = .search t again i) (hfree : (s.queue.nodes i).free = true)
    (hs' : (s.setQueue (s.queue.setNode i { s.queue.nodes i with free := false })).goto u
      (.writeHint t i) = s') : ∃ g', s'.Inv g' ∧ Keeps s s' g g' u := by
  have hh := hs' ▸ HandStep.claim h.shape hpc hfree
  have hshape : s'.Shape (g.claim u i) := by
    refine hh.shape h.shape ?_ ?_ h.shape.links h.shape.nodup
    · rw [← hs']
      exact h.shape.head
    · rw [← hs']
      exact h.shape.tail
  have hk := hh.keeps h.shape (Or.inl (by rw [← hs']; rfl)) fun v hv hseen =>
    hseen.claim ((h.shape.free i).mpr hfree) hv (hh.link i)
  refine ⟨_, h.of_keeps hshape hk ?_, hk⟩
  rw [← hs', goto_pc_self]
  trivial

theorem Inv.giveBack (h : s.Inv g) {head : Pointer} {ret : Option T}
    (hpc : s.pc u = .freeHead head ret)
    (hs' : (s.setQueue (s.queue.setNode (head.index.getD 0)
      { s.queue.target head with free := true })).goto u (.dequeued ret) = s') :
    ∃ g', s'.Inv g' ∧ Keeps s s' g g' u := by
  have hlocal := h.locals u
  rw [hpc] at hlocal
  obtain ⟨i, hi⟩ := Option.ne_none_iff_exists'.mp hlocal
  have hh := hs' ▸ HandStep.giveBack h.shape hpc hi
  have hshape : s'.Shape (g.giveBack i) := by
    refine hh.shape h.shape ?_ ?_ h.shape.links h.shape.nodup
    · rw [← hs']
      exact h.shape.head
    · rw [← hs']
      exact h.shape.tail
  have hplace : g.place i = .held u :=
    (h.shape.held u i).mpr (mem_own_of_root (by rw [hpc]; exact hi))
  have hk := hh.keeps h.shape (Or.inl (by rw [← hs']; rfl)) fun v hv hseen =>
    hseen.giveBack hplace (by rw [hpc]; rfl) (hh.link i)
  refine ⟨_, h.of_keeps hshape hk ?_, hk⟩
  rw [← hs', goto_pc_self]
  trivial

/-- The exchange of `qhead` takes the first value of the list. -/
theorem Inv.take (h : s.Inv g) (hlt : s.linked.length < 2 ^ 32) {head next : Pointer}
    {ret : Option T} (hpc : s.pc u = .swingHead head next ret)
    (hsame : s.queue.qhead.same head = true)
    (hs' : ({ s with taken := s.taken ++ [ret] }.setQueue
      { s.queue with qhead := ⟨next.index, head.version + 1⟩ }).goto u (.freeHead head ret) = s') :
    ∃ g', s'.Inv g' ∧ Keeps s s' g g' u := by
  have hlocal := h.locals u
  rw [hpc] at hlocal
  obtain ⟨hfirst, hvalue⟩ := hlocal
  have heq := hfirst.headBefore.eq_of_same (h.shape.qhead_lt hlt) hsame
  obtain ⟨b, hb⟩ := Option.ne_none_iff_exists'.mp hfirst.index
  obtain ⟨rest, hlist⟩ := h.shape.first_mem heq (hfirst.leads heq) hb
  have hhead : head.index = some g.dummy := by rw [← heq, h.shape.head]
  have hversion : head.version = s.taken.length := by rw [← heq, h.shape.head]
  have hret : s.value b = ret := by
    have hret := hvalue heq
    rwa [hb] at hret
  have hh := hs' ▸ HandStep.take h.shape hpc hhead hlist hret
  have hdummy : (g.take u).dummy = b := by
    show g.list.headD g.dummy = b
    rw [hlist]
    rfl
  have hrest : (g.take u).list = rest := by
    show g.list.tail = rest
    rw [hlist]
    rfl
  have hlinks := h.shape.links
  have hnodup := h.shape.nodup
  rw [hlist] at hlinks hnodup
  have hqhead : s'.queue.qhead = ⟨some b, s.taken.length + 1⟩ := by
    rw [← hs', goto_queue, setQueue_queue, hb, hversion]
  have htaken : s'.taken.length = s.taken.length + 1 := by
    rw [← hs', goto_taken, setQueue_taken, List.length_append, List.length_singleton]
  have hshape : s'.Shape (g.take u) := by
    refine hh.shape h.shape ?_ ?_ ?_ ?_
    · rw [hqhead, hdummy, htaken]
    · -- `qtail` is behind the first node
      rw [hdummy, hrest, hh.qtail, htaken]
      obtain ⟨pre, a, post, hsplit, hq⟩ := h.shape.tail
      have hapart := hfirst.apart heq
      rw [hq, hhead] at hapart
      cases pre with
      | nil => exact absurd (congrArg some (List.cons.inj hsplit).1.symm) hapart
      | cons c pre =>
          refine ⟨pre, a, post, by rw [← hlist]; exact (List.cons.inj hsplit).2, ?_⟩
          rw [hq, List.length_cons, Nat.add_assoc, Nat.add_comm 1]
    · rw [hdummy, hrest]
      exact hlinks.2
    · rw [hdummy, hrest]
      exact (List.nodup_cons.mp hnodup).2
  have hlink : s'.queue.link g.dummy ≠ none := by
    rw [hh.link, hlinks.1]
    simp
  have hlater : s.queue.qhead.version < s'.queue.qhead.version := by
    rw [hqhead, h.shape.head]
    exact Nat.lt_succ_self _
  have hk := hh.keeps h.shape (Or.inr hlater) fun v hv _ => Seen.take hv hlink
  refine ⟨_, h.of_keeps hshape hk ?_, hk⟩
  rw [← hs', goto_pc_self]
  show head.index ≠ none
  rw [hhead]
  simp

theorem LinkStep.of_linkNode {t : T} {i : Nat} {tail next : Pointer}
    (hpc : s.pc u = .linkNode t i tail next) (hnone : s.queue.link (tail.index.getD 0) = none) :
    LinkStep s (({ s with linked := s.linked ++ [t] }.setQueue
      (s.queue.setNode (tail.index.getD 0)
        { s.queue.target tail with next := ⟨some i, next.version + 1⟩ })).goto u
          (.swingTail t i tail)) u i (tail.index.getD 0) t := by
  have hnode : (s.queue.setNode (tail.index.getD 0)
      { s.queue.target tail with next := ⟨some i, next.version + 1⟩ }).nodes (tail.index.getD 0) =
      { s.queue.target tail with next := ⟨some i, next.version + 1⟩ } := Function.update_self ..
  have hother : ∀ b, b ≠ tail.index.getD 0 → (s.queue.setNode (tail.index.getD 0)
      { s.queue.target tail with next := ⟨some i, next.version + 1⟩ }).nodes b =
      s.queue.nodes b := fun b hb => Function.update_of_ne hb ..
  exact
    { pc := fun v hv => goto_pc_of_ne _ hv _
      link := hnone
      link' := by
        rw [HQueue.link, goto_queue, setQueue_queue, hnode]
      other := fun b hb => by
        rw [HQueue.link, goto_queue, setQueue_queue, hother b hb]
        rfl
      value := fun b => by
        rw [Threads.value, goto_queue, setQueue_queue]
        by_cases hb : b = tail.index.getD 0
        · rw [hb, hnode]
          rfl
        · rw [hother b hb]
          rfl
      free := fun b => by
        rw [goto_queue, setQueue_queue]
        by_cases hb : b = tail.index.getD 0
        · rw [hb, hnode]
          rfl
        · rw [hother b hb]
      qhead := rfl
      qtail := rfl
      taken := rfl
      linked := rfl
      ready := by rw [hpc]; rfl
      filled := by rw [hpc]; rfl
      root' := by rw [goto_pc_self]; rfl }

/-- The node behind which the exchange of `linkNode` puts another one is the last of the list, or
the last that another thread holds. -/
theorem Inv.link_cases (h : s.Inv g) {t : T} {i : Nat} {tail next : Pointer}
    (hpc : s.pc u = .linkNode t i tail next)
    (hsame : (s.queue.target tail).next.same next = true) :
    s.queue.link (tail.index.getD 0) = none ∧ tail.Before s.queue.qtail ∧
      (g.place (tail.index.getD 0) = .listed ∨ ∃ v j, v ≠ u ∧
        g.place (tail.index.getD 0) = .held v ∧ (s.pc v).ready = some j ∧
        g.stamp u < g.stamp v) := by
  have hlocal := h.locals u
  rw [hpc] at hlocal
  obtain ⟨⟨hbefore, -, hseen⟩, hnext⟩ := hlocal
  have hnone : s.queue.link (tail.index.getD 0) = none :=
    (of_decide_eq_true hsame).1.trans hnext
  refine ⟨hnone, hbefore, ?_⟩
  rw [Seen] at hseen
  cases hplace : g.place (tail.index.getD 0) with
  | listed => exact Or.inl rfl
  | free =>
      rw [hplace] at hseen
      exact absurd hnone hseen
  | held v =>
      rw [hplace] at hseen
      obtain ⟨hstamp, hready⟩ := hseen
      have hv : v ≠ u := by
        rintro rfl
        exact Nat.lt_irrefl _ hstamp
      obtain ⟨j, hj⟩ := Option.ne_none_iff_exists'.mp fun hnot => hready hnot hnone
      exact Or.inr ⟨v, j, hv, rfl, hj, hstamp⟩

theorem Inv.listed (h : s.Inv g) {a : Nat} : s.queue.Listed a ↔ g.place a = .listed := by
  rw [h.shape.listed]
  constructor
  · rintro ⟨d, ps, hd, hlinks, hmem⟩
    rw [h.shape.head] at hd
    cases hd
    rw [h.shape.links.unique hlinks]
    exact hmem
  · exact fun hmem => ⟨g.dummy, g.list, by rw [h.shape.head], h.shape.links, hmem⟩

/-- The exchange of a next pointer. -/
theorem Inv.link (h : s.Inv g) {t : T} {i : Nat} {tail next : Pointer}
    (hpc : s.pc u = .linkNode t i tail next)
    (hsame : (s.queue.target tail).next.same next = true)
    (hs' : ({ s with linked := s.linked ++ [t] }.setQueue (s.queue.setNode (tail.index.getD 0)
      { s.queue.target tail with next := ⟨some i, next.version + 1⟩ })).goto u
        (.swingTail t i tail) = s') : ∃ g', s'.Inv g' ∧ Keeps s s' g g' u := by
  obtain ⟨hnone, hbefore, hcases⟩ := h.link_cases hpc hsame
  have hl := hs' ▸ LinkStep.of_linkNode hpc hnone
  have hafter : ∀ g', s'.LocalOk g' u (s'.pc u) := by
    intro g'
    rw [← hs', goto_pc_self]
    refine ⟨hbefore, fun _ => ?_⟩
    rw [hs']
    exact hl.link'
  rcases hcases with hplace | ⟨v, j, hv, hplace, hj, hstamp⟩
  · have hk := hl.keeps_append h.shape hplace
    exact ⟨_, h.of_keeps (hl.shape_append h.shape hplace) hk (hafter _), hk⟩
  · have hfresh : ¬ s.Fresh u := by
      intro hf
      have hlisted := h.listed.mp (hf t i tail next hpc hsame)
      rw [hplace] at hlisted
      cases hlisted
    have hk := hl.keeps_hang hv hplace hj hstamp hfresh
    exact ⟨_, h.of_keeps (hl.shape_hang h.shape hv hplace hj) hk (hafter _), hk⟩

theorem SeenTail.goto {p : Pc T} {tail : Pointer} (h : s.SeenTail g u tail)
    (hseen : ∀ a, s.Seen g u a → (s.goto u p).Seen g u a) : (s.goto u p).SeenTail g u tail :=
  ⟨h.before, h.index, hseen _ h.seen⟩

/-- `qtail` is in the list. -/
theorem Shape.seenTail (h : s.Shape g) {p : Pc T} (hnone : s.queue.qtail.index ≠ none) :
    (s.goto u p).SeenTail g u s.queue.qtail := by
  obtain ⟨a, ha⟩ := Option.ne_none_iff_exists'.mp hnone
  refine ⟨Pointer.Before.refl _, hnone, ?_⟩
  rw [Seen, ha, show (Option.getD (some a) 0) = a from rfl, (h.listed a).mpr (h.tail_mem ha)]
  trivial

/-! ## Where a thread stands -/

theorem Inv.run_search (h : s.Inv g) {t : T} {again : Bool} {i : Nat}
    (hpc : s.pc u = .search t again i) (hrun : s.run u = some s') :
    ∃ g', s'.Inv g' ∧ Keeps s s' g g' u := by
  simp only [Threads.run, hpc] at hrun
  by_cases hi : i < s.queue.queueSize
  · rw [if_pos hi] at hrun
    by_cases hfree : (s.queue.nodes i).free = true
    · rw [if_pos hfree] at hrun
      exact h.claim hpc hfree (Option.some.inj hrun)
    · rw [if_neg hfree] at hrun
      cases hrun
      exact h.goto hpc rfl rfl rfl fun _ => trivial
  · rw [if_neg hi] at hrun
    cases hrun
    cases again with
    | true => exact h.goto hpc rfl rfl rfl fun _ => trivial
    | false => exact h.goto hpc rfl rfl rfl fun _ => trivial

theorem Inv.run_writeValue (h : s.Inv g) {t : T} {i : Nat} (hpc : s.pc u = .writeValue t i)
    (hrun : s.run u = some s') : ∃ g', s'.Inv g' ∧ Keeps s s' g g' u := by
  simp only [Threads.run, hpc, Option.some.injEq] at hrun
  subst hrun
  refine h.write (by rw [hpc]; rfl) (by rw [hpc]; rfl) rfl rfl (fun _ => rfl) (Or.inl rfl) ?_
    fun _ => trivial
  rintro j t' ⟨⟩
  exact ⟨rfl, rfl⟩

theorem Inv.run_writeNext (h : s.Inv g) {t : T} {i : Nat} (hpc : s.pc u = .writeNext t i)
    (hrun : s.run u = some s') : ∃ g', s'.Inv g' ∧ Keeps s s' g g' u := by
  simp only [Threads.run, hpc, Option.some.injEq] at hrun
  subst hrun
  have hvalue := h.shape.filled u i t (by rw [hpc]; rfl)
  refine h.write (by rw [hpc]; rfl) (by rw [hpc]; rfl) rfl rfl (fun hnone => by cases hnone)
    (Or.inr ⟨rfl, rfl⟩) ?_ fun _ => trivial
  rintro j t' ⟨⟩
  exact ⟨rfl, hvalue⟩

theorem Inv.run_readTail (h : s.Inv g) {t : T} {i : Nat} (hpc : s.pc u = .readTail t i)
    (hrun : s.run u = some s') : ∃ g', s'.Inv g' ∧ Keeps s s' g g' u := by
  simp only [Threads.run, hpc, Option.some.injEq] at hrun
  subst hrun
  by_cases hnone : s.queue.qtail.index = none
  · rw [if_pos hnone]
    exact h.goto hpc rfl rfl rfl fun _ => trivial
  · rw [if_neg hnone]
    exact h.goto hpc rfl rfl rfl fun _ => h.shape.seenTail hnone

theorem Inv.run_readNext (h : s.Inv g) {t : T} {i : Nat} {tail : Pointer}
    (hpc : s.pc u = .readNext t i tail) (hrun : s.run u = some s') :
    ∃ g', s'.Inv g' ∧ Keeps s s' g g' u := by
  have hlocal := h.locals u
  rw [hpc] at hlocal
  simp only [Threads.run, hpc, Option.some.injEq] at hrun
  subst hrun
  exact h.goto hpc rfl rfl rfl fun hseen => ⟨hlocal.goto hseen, fun _ b hb => hb⟩

theorem Inv.run_testTail (h : s.Inv g) {t : T} {i : Nat} {tail next : Pointer}
    (hpc : s.pc u = .testTail t i tail next) (hrun : s.run u = some s') :
    ∃ g', s'.Inv g' ∧ Keeps s s' g g' u := by
  have hlocal := h.locals u
  rw [hpc] at hlocal
  obtain ⟨htail, hleads⟩ := hlocal
  simp only [Threads.run, hpc, Option.some.injEq] at hrun
  subst hrun
  by_cases hsame : tail.same s.queue.qtail = false
  · rw [if_pos hsame]
    exact h.goto hpc rfl rfl rfl fun _ => trivial
  · rw [if_neg hsame]
    by_cases hnext : next.index ≠ none
    · rw [if_pos hnext]
      exact h.goto hpc rfl rfl rfl fun _ => ⟨htail.before, hnext, hleads⟩
    · rw [if_neg hnext]
      exact h.goto hpc rfl rfl rfl fun hseen => ⟨htail.goto hseen, not_not.mp hnext⟩

theorem Inv.run_helpTail (h : s.Inv g) (hlt : s.linked.length < 2 ^ 32)
    {t : T} {i : Nat} {tail next : Pointer} (hpc : s.pc u = .helpTail t i tail next)
    (hrun : s.run u = some s') : ∃ g', s'.Inv g' ∧ Keeps s s' g g' u := by
  have hlocal := h.locals u
  rw [hpc] at hlocal
  obtain ⟨hbefore, hnext, hleads⟩ := hlocal
  simp only [Threads.run, hpc, Option.some.injEq] at hrun
  subst hrun
  obtain ⟨b, hb⟩ := Option.ne_none_iff_exists'.mp hnext
  refine h.quiet hpc rfl rfl rfl rfl rfl ?_ rfl rfl rfl fun _ => trivial
  rw [hb]
  exact h.shape.tailMoves hlt hbefore (fun heq => hleads heq b hb) rfl

theorem Inv.run_linkNode (h : s.Inv g) {t : T} {i : Nat} {tail next : Pointer}
    (hpc : s.pc u = .linkNode t i tail next) (hrun : s.run u = some s') :
    ∃ g', s'.Inv g' ∧ Keeps s s' g g' u := by
  simp only [Threads.run, hpc] at hrun
  by_cases hsame : (s.queue.target tail).next.same next = true
  · rw [if_pos hsame] at hrun
    exact h.link hpc hsame (Option.some.inj hrun)
  · rw [if_neg hsame] at hrun
    cases hrun
    exact h.goto hpc rfl rfl rfl fun _ => trivial

theorem Inv.run_swingTail (h : s.Inv g) (hlt : s.linked.length < 2 ^ 32)
    {t : T} {i : Nat} {tail : Pointer} (hpc : s.pc u = .swingTail t i tail)
    (hrun : s.run u = some s') : ∃ g', s'.Inv g' ∧ Keeps s s' g g' u := by
  have hlocal := h.locals u
  rw [hpc] at hlocal
  obtain ⟨hbefore, hlink⟩ := hlocal
  simp only [Threads.run, hpc, Option.some.injEq] at hrun
  subst hrun
  exact h.quiet hpc rfl rfl rfl rfl rfl (h.shape.tailMoves hlt hbefore hlink rfl) rfl rfl rfl
    fun _ => trivial

theorem Inv.run_readHeadTail (h : s.Inv g) {head : Pointer} (hpc : s.pc u = .readHeadTail head)
    (hrun : s.run u = some s') : ∃ g', s'.Inv g' ∧ Keeps s s' g g' u := by
  have hlocal := h.locals u
  rw [hpc] at hlocal
  have hbefore : head.Before s.queue.qhead := hlocal
  simp only [Threads.run, hpc, Option.some.injEq] at hrun
  subst hrun
  by_cases hnone : head.index = none
  · rw [if_pos hnone]
    exact h.goto hpc rfl rfl rfl fun _ => trivial
  · rw [if_neg hnone]
    exact h.goto hpc rfl rfl rfl fun _ => ⟨hbefore, Pointer.Before.refl _, fun _ hne => hne⟩

theorem Inv.run_readHeadNext (h : s.Inv g) {head tail : Pointer}
    (hpc : s.pc u = .readHeadNext head tail) (hrun : s.run u = some s') :
    ∃ g', s'.Inv g' ∧ Keeps s s' g g' u := by
  have hlocal := h.locals u
  rw [hpc] at hlocal
  obtain ⟨hhead, htail, hapart⟩ := hlocal
  simp only [Threads.run, hpc, Option.some.injEq] at hrun
  subst hrun
  refine h.goto hpc rfl rfl rfl fun _ =>
    ⟨⟨hhead, htail, hapart⟩, fun _ b hb => hb, fun _ hidx b hb => ?_⟩
  rw [hidx]
  exact hb

theorem Inv.run_testHead (h : s.Inv g) {head tail next : Pointer}
    (hpc : s.pc u = .testHead head tail next) (hrun : s.run u = some s') :
    ∃ g', s'.Inv g' ∧ Keeps s s' g g' u := by
  have hlocal := h.locals u
  rw [hpc] at hlocal
  obtain ⟨⟨hhead, htail, hapart⟩, hleads, hleadsTail⟩ := hlocal
  simp only [Threads.run, hpc, Option.some.injEq] at hrun
  subst hrun
  by_cases hsame : head.same s.queue.qhead = false
  · rw [if_pos hsame]
    exact h.goto hpc rfl rfl rfl fun _ => trivial
  · rw [if_neg hsame]
    by_cases hidx : head.index = tail.index
    · rw [if_pos hidx]
      by_cases hnext : next.index = none
      · rw [if_pos hnext]
        exact h.goto hpc rfl rfl rfl fun _ => trivial
      · rw [if_neg hnext]
        exact h.goto hpc rfl rfl rfl fun _ =>
          ⟨htail, hnext, fun heq => hleadsTail heq hidx.symm⟩
    · rw [if_neg hidx]
      by_cases hnext : next.index = none
      · rw [if_pos hnext]
        exact h.goto hpc rfl rfl rfl fun _ => trivial
      · rw [if_neg hnext]
        exact h.goto hpc rfl rfl rfl fun _ =>
          ⟨hhead, hnext, fun heq => hapart heq (Ne.symm hidx), hleads⟩

theorem Inv.run_passEmpty (h : s.Inv g) (hlt : s.linked.length < 2 ^ 32) {tail next : Pointer}
    (hpc : s.pc u = .passEmpty tail next) (hrun : s.run u = some s') :
    ∃ g', s'.Inv g' ∧ Keeps s s' g g' u := by
  have hlocal := h.locals u
  rw [hpc] at hlocal
  obtain ⟨hbefore, hnext, hleads⟩ := hlocal
  simp only [Threads.run, hpc, Option.some.injEq] at hrun
  subst hrun
  obtain ⟨b, hb⟩ := Option.ne_none_iff_exists'.mp hnext
  refine h.quiet hpc rfl rfl rfl rfl rfl ?_ rfl rfl rfl fun _ => trivial
  rw [hb]
  exact h.shape.tailMoves hlt hbefore (fun heq => hleads heq b hb) rfl

theorem Inv.run_readValue (h : s.Inv g) {head next : Pointer}
    (hpc : s.pc u = .readValue head next) (hrun : s.run u = some s') :
    ∃ g', s'.Inv g' ∧ Keeps s s' g g' u := by
  have hlocal := h.locals u
  rw [hpc] at hlocal
  obtain ⟨hhead, hindex, hapart, hleads⟩ := hlocal
  simp only [Threads.run, hpc, Option.some.injEq] at hrun
  subst hrun
  exact h.goto hpc rfl rfl rfl fun _ => ⟨⟨hhead, hindex, hapart, hleads⟩, fun _ => rfl⟩

theorem Inv.run_swingHead (h : s.Inv g) (hlt : s.linked.length < 2 ^ 32)
    {head next : Pointer} {ret : Option T} (hpc : s.pc u = .swingHead head next ret)
    (hrun : s.run u = some s') : ∃ g', s'.Inv g' ∧ Keeps s s' g g' u := by
  simp only [Threads.run, hpc] at hrun
  by_cases hsame : s.queue.qhead.same head = true
  · rw [if_pos hsame] at hrun
    exact h.take hlt hpc hsame (Option.some.inj hrun)
  · rw [if_neg hsame] at hrun
    cases hrun
    exact h.goto hpc rfl rfl rfl fun _ => trivial

/-- The rule for the steps of `Enqueue` and `Dequeue`. -/
theorem Inv.run (h : s.Inv g) (hlt : s.linked.length < 2 ^ 32) (hrun : s.run u = some s') :
    ∃ g', s'.Inv g' ∧ Keeps s s' g g' u := by
  cases hpc : s.pc u with
  | idle => simp only [Threads.run, hpc, reduceCtorEq] at hrun
  | readHint t =>
      simp only [Threads.run, hpc, Option.some.injEq] at hrun
      subst hrun
      exact h.goto hpc rfl rfl rfl fun _ => trivial
  | search t again i => exact h.run_search hpc hrun
  | resetHint t =>
      simp only [Threads.run, hpc, Option.some.injEq] at hrun
      subst hrun
      exact h.quiet hpc rfl rfl rfl rfl rfl (Or.inl rfl) rfl rfl rfl fun _ => trivial
  | writeHint t i =>
      simp only [Threads.run, hpc, Option.some.injEq] at hrun
      subst hrun
      exact h.quiet hpc rfl rfl rfl rfl rfl (Or.inl rfl) rfl rfl rfl fun _ => trivial
  | writeValue t i => exact h.run_writeValue hpc hrun
  | writeNext t i => exact h.run_writeNext hpc hrun
  | readTail t i => exact h.run_readTail hpc hrun
  | readNext t i tail => exact h.run_readNext hpc hrun
  | testTail t i tail next => exact h.run_testTail hpc hrun
  | helpTail t i tail next => exact h.run_helpTail hlt hpc hrun
  | linkNode t i tail next => exact h.run_linkNode hpc hrun
  | swingTail t i tail => exact h.run_swingTail hlt hpc hrun
  | enqueued t ok =>
      simp only [Threads.run, hpc, Option.some.injEq] at hrun
      subst hrun
      exact h.quiet hpc rfl rfl rfl rfl rfl (Or.inl rfl) rfl rfl rfl fun _ => trivial
  | readHead =>
      simp only [Threads.run, hpc, Option.some.injEq] at hrun
      subst hrun
      exact h.goto hpc rfl rfl rfl fun _ => Pointer.Before.refl _
  | readHeadTail head => exact h.run_readHeadTail hpc hrun
  | readHeadNext head tail => exact h.run_readHeadNext hpc hrun
  | testHead head tail next => exact h.run_testHead hpc hrun
  | passEmpty tail next => exact h.run_passEmpty hlt hpc hrun
  | readValue head next => exact h.run_readValue hpc hrun
  | swingHead head next ret => exact h.run_swingHead hlt hpc hrun
  | freeHead head ret =>
      simp only [Threads.run, hpc, Option.some.injEq] at hrun
      exact h.giveBack hpc hrun
  | dequeued ret =>
      simp only [Threads.run, hpc, Option.some.injEq] at hrun
      subst hrun
      exact h.quiet hpc rfl rfl rfl rfl rfl (Or.inl rfl) rfl rfl rfl fun _ => trivial

/-! ## The calls -/

theorem Inv.step {e : Event n T} (h : s.Inv g) (hlt : s.linked.length < 2 ^ 32)
    (hstep : s.step e = some s') : ∃ g', s'.Inv g' ∧ Keeps s s' g g' e.thread := by
  cases e with
  | enqueue u t =>
      cases hpc : s.pc u with
      | idle =>
          simp only [Threads.step, hpc, Option.some.injEq] at hstep
          subst hstep
          exact h.quiet hpc rfl rfl rfl rfl rfl (Or.inl rfl) rfl rfl rfl fun _ => trivial
      | _ => simp only [Threads.step, hpc, reduceCtorEq] at hstep
  | dequeue u =>
      cases hpc : s.pc u with
      | idle =>
          simp only [Threads.step, hpc, Option.some.injEq] at hstep
          subst hstep
          exact h.goto hpc rfl rfl rfl fun _ => trivial
      | _ => simp only [Threads.step, hpc, reduceCtorEq] at hstep
  | run u => exact h.run hlt hstep

theorem Inv.start {sz : Int} {q : HQueue T} (hq : HQueue.init sz = some q) :
    (start n q).Inv
      { dummy := 0
        list := []
        behind := fun _ => []
        place := fun a => if a = 0 then .listed else .free
        stamp := fun _ => 0 } := by
  rw [HQueue.init] at hq
  by_cases hsz : sz ≤ 0
  · rw [if_pos hsz] at hq
    cases hq
  · rw [if_neg hsz] at hq
    cases hq
    refine ⟨⟨rfl, ⟨[], 0, [], rfl, rfl⟩, rfl, List.nodup_singleton 0, fun a => ?_, fun u a => ?_,
      fun u => List.nodup_nil, fun a => ?_, fun u _ => rfl, fun u i hi => ?_, fun u i t hi => ?_,
      ?_⟩, fun u => trivial⟩
    · by_cases ha : a = 0
      · simp [ha]
      · simp [ha]
    · show (if a = 0 then Place.listed else .free) = .held u ↔ a ∈ []
      by_cases ha : a = 0
      · simp [ha]
      · simp [ha]
    · by_cases ha : a = 0
      · simp [ha, Threads.start]
      · simp [ha, Threads.start]
    · cases hi
    · cases hi
    · simp [Threads.start]

end Threads

end Ccbase.Nice
