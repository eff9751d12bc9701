import Ccbase.Nice.HQueueThreadsInv

/-!
# The steps of the threads of an `HQueue`

A node changes hands when it is claimed, taken from the front or given back. It comes behind
another one by the exchange of `linkNode`: at the end of the list, or at the end of what another
thread holds.
-/

namespace Ccbase.Nice

open Ccbase.Lib

variable {n : Nat} {T : Type}

namespace Layout

/-- Node `i` is claimed for a value. -/
def claim (g : Layout n) (u : Fin n) (i : Nat) : Layout n :=
  { g with
    place := Function.update g.place i (.held u)
    stamp := Function.update g.stamp u g.now }

/-- The first value is taken. -/
def take (g : Layout n) (u : Fin n) : Layout n :=
  { g with
    dummy := g.list.headD g.dummy
    list := g.list.tail
    place := Function.update g.place g.dummy (.held u)
    stamp := Function.update g.stamp u g.now }

/-- Node `i` is free again. -/
def giveBack (g : Layout n) (i : Nat) : Layout n :=
  { g with place := Function.update g.place i .free }

/-- What `u` holds comes into the list. -/
def append (g : Layout n) (u : Fin n) (i : Nat) : Layout n :=
  { g with
    list := g.list ++ i :: g.behind u
    behind := Function.update g.behind u []
    place := fun a => if g.place a = .held u then .listed else g.place a }

/-- What `u` holds comes behind what `w` holds. -/
def hang (g : Layout n) (u w : Fin n) (i : Nat) : Layout n :=
  { g with
    behind := Function.update (Function.update g.behind w (g.behind w ++ i :: g.behind u)) u []
    place := fun a => if g.place a = .held u then .held w else g.place a }

end Layout

namespace Threads

variable {s s' : Threads n T} {g g' : Layout n} {u v : Fin n} {i : Nat} {x : Place n}

/-! ## A node changes hands -/

/-- Node `i` comes to place `x` by a step of `u`, which holds no other node. -/
structure HandStep (s s' : Threads n T) (g g' : Layout n) (u : Fin n) (i : Nat)
    (x : Place n) : Prop where
  pc : ∀ v, v ≠ u → s'.pc v = s.pc v
  link : ∀ a, s'.queue.link a = s.queue.link a
  value : ∀ a, s'.value a = s.value a
  linked : s'.linked = s.linked
  qtail : s'.queue.qtail = s.queue.qtail
  ready : (s.pc u).ready = none
  ready' : (s'.pc u).ready = none
  filled : (s'.pc u).filled = none
  behind : g'.behind = g.behind
  place : g'.place = Function.update g.place i x
  stamp : ∀ v, v ≠ u → g'.stamp v = g.stamp v
  old : ∀ v, v ≠ u → g.place i ≠ .held v
  new : ∀ v, v ≠ u → x ≠ .held v
  root : ∀ a, (s.pc u).root = some a → a = i
  root' : ∀ a, (s'.pc u).root = some a ↔ a = i ∧ x = .held u
  free : ∀ a, a ≠ i → (s'.queue.nodes a).free = (s.queue.nodes a).free
  free' : (s'.queue.nodes i).free = true ↔ x = .free
  notListed : x ≠ .listed
  list : ∀ a, a ∈ g'.dummy :: g'.list ↔ a ≠ i ∧ a ∈ g.dummy :: g.list
  content : s'.content g' = s.content g

theorem Shape.own_of_not_ready (h : s.Shape g) (hready : (s.pc u).ready = none) :
    s.own g u = (s.pc u).root.toList := by
  have hsingle := h.single u hready
  rw [own]
  cases hroot : (s.pc u).root with
  | none => rfl
  | some i =>
      show i :: g.behind u = [i]
      rw [hsingle]

theorem HandStep.own_self (hh : HandStep s s' g g' u i x) (h : s.Shape g) :
    s'.own g' u = (s'.pc u).root.toList := by
  have hsingle := h.single u hh.ready
  rw [own, hh.behind]
  cases hroot : (s'.pc u).root with
  | none => rfl
  | some i =>
      show i :: g.behind u = [i]
      rw [hsingle]

theorem HandStep.own_other (hh : HandStep s s' g g' u i x) (hv : v ≠ u) :
    s'.own g' v = s.own g v :=
  own_eq (by rw [hh.pc v hv]) (by rw [hh.behind])

theorem HandStep.place_of_ne (hh : HandStep s s' g g' u i x) {a : Nat} (ha : a ≠ i) :
    g'.place a = g.place a := by
  rw [hh.place, Function.update_of_ne ha]

theorem HandStep.place_self (hh : HandStep s s' g g' u i x) : g'.place i = x := by
  rw [hh.place, Function.update_self]

theorem HandStep.shape (hh : HandStep s s' g g' u i x) (h : s.Shape g)
    (hhead : s'.queue.qhead = ⟨some g'.dummy, s'.taken.length⟩)
    (htail : ∃ pre a post, g'.dummy :: g'.list = pre ++ a :: post ∧
      s'.queue.qtail = ⟨some a, s'.taken.length + pre.length⟩)
    (hlinks : Links s.queue.link g'.dummy g'.list none)
    (hnodup : (g'.dummy :: g'.list).Nodup) : s'.Shape g' where
  head := hhead
  tail := htail
  links := hlinks.congr fun a _ => hh.link a
  nodup := hnodup
  listed := fun a => by
    rw [hh.list]
    by_cases ha : a = i
    · rw [ha, hh.place_self]
      simp [hh.notListed]
    · rw [hh.place_of_ne ha, h.listed]
      simp [ha]
  held := fun v a => by
    by_cases hv : v = u
    · rw [hv, hh.own_self h, Option.mem_toList, hh.root']
      by_cases ha : a = i
      · rw [ha, hh.place_self]
        simp
      · rw [hh.place_of_ne ha, h.held, h.own_of_not_ready hh.ready, Option.mem_toList]
        exact iff_of_false (fun hroot => ha (hh.root a hroot)) fun heq => ha heq.1
    · rw [hh.own_other hv, ← h.held]
      by_cases ha : a = i
      · rw [ha, hh.place_self]
        exact iff_of_false (hh.new v hv) (hh.old v hv)
      · rw [hh.place_of_ne ha]
  heldNodup := fun v => by
    by_cases hv : v = u
    · rw [hv, hh.own_self h]
      cases (s'.pc u).root <;> simp
    · rw [hh.own_other hv]
      exact h.heldNodup v
  free := fun a => by
    by_cases ha : a = i
    · rw [ha, hh.place_self, hh.free']
    · rw [hh.place_of_ne ha, h.free, hh.free a ha]
  single := fun v hv => by
    rw [hh.behind]
    by_cases heq : v = u
    · rw [heq]
      exact h.single u hh.ready
    · rw [hh.pc v heq] at hv
      exact h.single v hv
  ready := fun v j hv => by
    by_cases heq : v = u
    · rw [heq, hh.ready'] at hv
      cases hv
    · rw [hh.pc v heq] at hv
      rw [hh.behind]
      exact (h.ready v j hv).congr fun a _ => hh.link a
  filled := fun v j t hv => by
    by_cases heq : v = u
    · rw [heq, hh.filled] at hv
      cases hv
    · rw [hh.pc v heq] at hv
      rw [hh.value]
      exact h.filled v j t hv
  count := by
    have hvalue : s'.value = s.value := funext hh.value
    have hcontent : ((s'.taken ++ g'.list.map s'.value : List (Option T)) :
        Multiset (Option T)) = (s.taken ++ g.list.map s.value : List (Option T)) := by
      have hlist := hh.content
      rw [Threads.content, Threads.content] at hlist
      rw [hlist]
    rw [← Multiset.coe_add, ← Multiset.coe_add] at hcontent
    rw [hh.linked, hh.behind, h.count, hcontent, hvalue]

theorem HandStep.keeps (hh : HandStep s s' g g' u i x) (h : s.Shape g)
    (hqhead : s'.queue.qhead = s.queue.qhead ∨ s.queue.qhead.version < s'.queue.qhead.version)
    (hseen : ∀ v, v ≠ u → s.Seen g v i → s'.Seen g' v i) : Keeps s s' g g' u where
  qhead := hqhead
  qtail := Or.inl hh.qtail
  apart := fun heq hne => by
    rw [heq, hh.qtail]
    exact hne
  link := fun a _ b hb => by
    rw [hh.link]
    exact hb
  value := fun a _ => hh.value a
  seen := fun v hv a ha => by
    by_cases hai : a = i
    · rw [hai] at ha ⊢
      exact hseen v hv ha
    · rw [Seen] at ha ⊢
      rw [hh.place_of_ne hai]
      cases hplace : g.place a with
      | listed => trivial
      | free =>
          rw [hplace] at ha
          show s'.queue.link a ≠ none
          rw [hh.link]
          exact ha
      | held w =>
          rw [hplace] at ha
          have hw : w ≠ u := by
            rintro rfl
            rw [h.held, h.own_of_not_ready hh.ready, Option.mem_toList] at hplace
            exact hai (hh.root a hplace)
          show g'.stamp v < g'.stamp w ∧ ((s'.pc w).ready = none → s'.queue.link a ≠ none)
          rw [hh.link, hh.stamp v hv, hh.stamp w hw, hh.pc w hw]
          exact ha
  pc := hh.pc
  content := by rw [hh.content]
  inOrder := fun _ hord => ⟨by rw [hh.behind]; exact hord.behind,
    by rw [hh.content, hh.linked, hord.content]⟩
  back := fun _ hord => ⟨by rw [← hh.behind]; exact hord.behind,
    by rw [← hh.content, ← hh.linked, hord.content]⟩

/-- Only the flag of a node changes. -/
theorem link_setFree (q : HQueue T) (i a : Nat) (b : Bool) :
    (q.setNode i { q.nodes i with free := b }).link a = q.link a := by
  by_cases ha : a = i
  · rw [ha]
    simp [HQueue.link, HQueue.setNode]
  · simp [HQueue.link, HQueue.setNode, ha]

theorem value_setFree (q : HQueue T) (i a : Nat) (b : Bool) :
    ((q.setNode i { q.nodes i with free := b }).nodes a).value = (q.nodes a).value := by
  by_cases ha : a = i
  · rw [ha]
    simp [HQueue.setNode]
  · simp [HQueue.setNode, ha]

theorem free_setFree (q : HQueue T) (i a : Nat) (b : Bool) :
    ((q.setNode i { q.nodes i with free := b }).nodes a).free =
      if a = i then b else (q.nodes a).free := by
  by_cases ha : a = i
  · rw [if_pos ha, ha]
    simp [HQueue.setNode]
  · simp [HQueue.setNode, ha]

theorem HandStep.claim (h : s.Shape g) {t : T} {again : Bool}
    (hpc : s.pc u = .search t again i) (hfree : (s.queue.nodes i).free = true) :
    HandStep s ((s.setQueue (s.queue.setNode i { s.queue.nodes i with free := false })).goto u
      (.writeHint t i)) g (g.claim u i) u i (.held u) where
  pc := fun v hv => goto_pc_of_ne _ hv _
  link := fun a => link_setFree s.queue i a false
  value := fun a => value_setFree s.queue i a false
  linked := rfl
  qtail := rfl
  ready := by rw [hpc]; rfl
  ready' := by rw [goto_pc_self]; rfl
  filled := by rw [goto_pc_self]; rfl
  behind := rfl
  place := rfl
  stamp := fun v hv => Function.update_of_ne hv ..
  old := fun v _ => by simp [(h.free i).mpr hfree]
  new := fun v hv heq => hv (Place.held.inj heq).symm
  root := fun a ha => by rw [hpc] at ha; cases ha
  root' := fun a => by
    rw [goto_pc_self]
    show some i = some a ↔ _
    simp [eq_comm]
  free := fun a ha => (free_setFree s.queue i a false).trans (if_neg ha)
  free' := by
    have hnode := (free_setFree s.queue i i false).trans (if_pos rfl)
    simp [hnode]
  notListed := by simp
  list := fun a => by
    refine ⟨fun ha => ⟨?_, ha⟩, fun ha => ha.2⟩
    rintro rfl
    have hlisted := (h.listed a).mpr ha
    rw [(h.free a).mpr hfree] at hlisted
    cases hlisted
  content := by
    have hvalue := funext fun a => value_setFree s.queue i a false
    exact congrArg (fun f => s.taken ++ g.list.map f) hvalue

theorem Seen.claim (hplace : g.place i = .free) (hv : v ≠ u) (hseen : s.Seen g v i)
    (hlink : s'.queue.link i = s.queue.link i) : s'.Seen (g.claim u i) v i := by
  rw [Seen, hplace] at hseen
  have hplace' : (g.claim u i).place i = .held u := Function.update_self ..
  rw [Seen, hplace']
  refine ⟨?_, fun _ => by rw [hlink]; exact hseen⟩
  have hlt := g.stamp_lt_now v
  show Function.update g.stamp u g.now v < Function.update g.stamp u g.now u
  rwa [Function.update_of_ne hv, Function.update_self]

/-! ## The first value is taken -/

theorem HandStep.take (h : s.Shape g) {head next : Pointer} {ret : Option T} {b : Nat}
    {rest : List Nat} (hpc : s.pc u = .swingHead head next ret)
    (hhead : head.index = some g.dummy) (hlist : g.list = b :: rest) (hret : s.value b = ret) :
    HandStep s (({ s with taken := s.taken ++ [ret] }.setQueue
      { s.queue with qhead := ⟨next.index, head.version + 1⟩ }).goto u (.freeHead head ret))
      g (g.take u) u g.dummy (.held u) where
  pc := fun v hv => goto_pc_of_ne _ hv _
  link := fun a => rfl
  value := fun a => rfl
  linked := rfl
  qtail := rfl
  ready := by rw [hpc]; rfl
  ready' := by rw [goto_pc_self]; rfl
  filled := by rw [goto_pc_self]; rfl
  behind := rfl
  place := rfl
  stamp := fun v hv => Function.update_of_ne hv ..
  old := fun v _ => by simp [(h.listed g.dummy).mpr List.mem_cons_self]
  new := fun v hv heq => hv (Place.held.inj heq).symm
  root := fun a ha => by rw [hpc] at ha; cases ha
  root' := fun a => by
    rw [goto_pc_self]
    show head.index = some a ↔ _
    simp [hhead, eq_comm]
  free := fun a _ => rfl
  free' := by
    have hfree : (s.queue.nodes g.dummy).free ≠ true := by
      rw [ne_eq, ← h.free, (h.listed g.dummy).mpr List.mem_cons_self]
      simp
    exact iff_of_false hfree (by simp)
  notListed := by simp
  list := fun a => by
    have hnot := (List.nodup_cons.mp h.nodup).1
    show a ∈ g.list.headD g.dummy :: g.list.tail ↔ _
    rw [hlist] at hnot ⊢
    show a ∈ b :: rest ↔ _
    rw [List.mem_cons (a := a) (b := g.dummy)]
    constructor
    · intro ha
      exact ⟨fun heq => hnot (heq ▸ ha), Or.inr ha⟩
    · rintro ⟨hne, heq | ha⟩
      · exact absurd heq hne
      · exact ha
  content := by
    show (s.taken ++ [ret]) ++ g.list.tail.map s.value = s.taken ++ g.list.map s.value
    rw [hlist, ← hret]
    simp

theorem Seen.take (hv : v ≠ u)
    (hlink : s'.queue.link g.dummy ≠ none) : s'.Seen (g.take u) v g.dummy := by
  have hplace' : (g.take u).place g.dummy = .held u := Function.update_self ..
  rw [Seen, hplace']
  refine ⟨?_, fun _ => hlink⟩
  have hlt := g.stamp_lt_now v
  show Function.update g.stamp u g.now v < Function.update g.stamp u g.now u
  rwa [Function.update_of_ne hv, Function.update_self]

/-! ## The old dummy is given back -/

theorem HandStep.giveBack (h : s.Shape g) {head : Pointer} {ret : Option T}
    (hpc : s.pc u = .freeHead head ret) (hhead : head.index = some i) :
    HandStep s ((s.setQueue (s.queue.setNode (head.index.getD 0)
      { s.queue.target head with free := true })).goto u (.dequeued ret))
      g (g.giveBack i) u i .free where
  pc := fun v hv => goto_pc_of_ne _ hv _
  link := fun a => link_setFree s.queue (head.index.getD 0) a true
  value := fun a => value_setFree s.queue (head.index.getD 0) a true
  linked := rfl
  qtail := rfl
  ready := by rw [hpc]; rfl
  ready' := by rw [goto_pc_self]; rfl
  filled := by rw [goto_pc_self]; rfl
  behind := rfl
  place := rfl
  stamp := fun v _ => rfl
  old := fun v hv heq => by
    have hmem : g.place i = .held u := (h.held u i).mpr (mem_own_of_root (by rw [hpc]; exact hhead))
    rw [hmem] at heq
    exact hv (Place.held.inj heq).symm
  new := fun v _ => by simp
  root := fun a ha => by
    rw [hpc] at ha
    exact Option.some.inj (ha.symm.trans hhead)
  root' := fun a => by
    rw [goto_pc_self]
    show none = some a ↔ _
    simp
  free := fun a ha =>
    (free_setFree s.queue (head.index.getD 0) a true).trans (if_neg (by rw [hhead]; exact ha))
  free' := iff_of_true
    ((free_setFree s.queue (head.index.getD 0) i true).trans (if_pos (by rw [hhead]; rfl))) rfl
  notListed := by simp
  list := fun a => by
    have hmem : g.place i = .held u := (h.held u i).mpr (mem_own_of_root (by rw [hpc]; exact hhead))
    refine ⟨fun ha => ⟨?_, ha⟩, fun ha => ha.2⟩
    rintro rfl
    have hlisted := (h.listed a).mpr ha
    rw [hmem] at hlisted
    cases hlisted
  content := by
    have hvalue := funext fun a => value_setFree s.queue (head.index.getD 0) a true
    exact congrArg (fun f => s.taken ++ g.list.map f) hvalue

theorem Seen.giveBack (hplace : g.place i = .held u) (hready : (s.pc u).ready = none)
    (hseen : s.Seen g v i) (hlink : s'.queue.link i = s.queue.link i) :
    s'.Seen (g.giveBack i) v i := by
  rw [Seen, hplace] at hseen
  have hplace' : (g.giveBack i).place i = .free := Function.update_self ..
  rw [Seen, hplace']
  show s'.queue.link i ≠ none
  rw [hlink]
  exact hseen.2 hready

/-! ## A node comes behind another one -/

/-- `u` links its node `i`, which has value `t`, behind node `a`. -/
structure LinkStep (s s' : Threads n T) (u : Fin n) (i a : Nat) (t : T) : Prop where
  pc : ∀ v, v ≠ u → s'.pc v = s.pc v
  link : s.queue.link a = none
  link' : s'.queue.link a = some i
  other : ∀ b, b ≠ a → s'.queue.link b = s.queue.link b
  value : ∀ b, s'.value b = s.value b
  free : ∀ b, (s'.queue.nodes b).free = (s.queue.nodes b).free
  qhead : s'.queue.qhead = s.queue.qhead
  qtail : s'.queue.qtail = s.queue.qtail
  taken : s'.taken = s.taken
  linked : s'.linked = s.linked ++ [t]
  ready : (s.pc u).ready = some i
  filled : (s.pc u).filled = some (i, t)
  root' : (s'.pc u).root = none

variable {a : Nat} {t : T}

theorem LinkStep.mem_own (hl : LinkStep s s' u i a t) (h : s.Shape g) {b : Nat} :
    g.place b = .held u ↔ b ∈ i :: g.behind u := by
  rw [h.held, own, Pc.root_of_ready hl.ready]

theorem LinkStep.ready' (hl : LinkStep s s' u i a t) : (s'.pc u).ready = none := by
  cases hready : (s'.pc u).ready with
  | none => rfl
  | some j =>
      have hroot := Pc.root_of_ready hready
      rw [hl.root'] at hroot
      cases hroot

theorem LinkStep.filled' (hl : LinkStep s s' u i a t) : (s'.pc u).filled = none := by
  cases hfilled : (s'.pc u).filled with
  | none => rfl
  | some it =>
      have hroot := Pc.root_of_filled (p := s'.pc u) (i := it.1) (t := it.2) hfilled
      rw [hl.root'] at hroot
      cases hroot

theorem LinkStep.own_self (hl : LinkStep s s' u i a t) : s'.own g' u = [] := by
  rw [own, hl.root']

/-- The links among nodes that `a` is not one of. -/
theorem LinkStep.links (hl : LinkStep s s' u i a t) {c : Nat} {ps : List Nat} {z : Option Nat}
    (hlinks : Links s.queue.link c ps z) (ha : a ∉ c :: ps) : Links s'.queue.link c ps z := by
  refine hlinks.congr fun b hb => hl.other b ?_
  rintro rfl
  exact ha hb

/-- `a` is the last of the nodes. -/
theorem LinkStep.links_append (hl : LinkStep s s' u i a t) (h : s.Shape g) {c : Nat}
    {ps : List Nat} (hlinks : Links s.queue.link c ps none) (hnd : (c :: ps).Nodup)
    (ha : a ∈ c :: ps) (hau : g.place a ≠ .held u) :
    Links s'.queue.link c (ps ++ i :: g.behind u) none := by
  have hlast := hlinks.getLastD_of_next ha hl.link
  refine Links.append_iff.mpr ⟨?_, ?_⟩
  · refine hlinks.set_last hnd (hlast ▸ hl.link') fun b _ hb => hl.other b ?_
    rintro rfl
    exact hb hlast
  · refine hl.links (h.ready u i hl.ready) fun hmem => hau ?_
    rw [hl.mem_own h]
    exact hmem

/-- The values that come with the node of `u`. -/
theorem LinkStep.map_own (hl : LinkStep s s' u i a t) (h : s.Shape g) :
    (((i :: g.behind u).map s.value : List (Option T)) : Multiset (Option T)) =
      {some t} + ((g.behind u).map s.value : Multiset (Option T)) := by
  rw [List.map_cons, h.filled u i t hl.filled, ← Multiset.cons_coe, ← Multiset.singleton_add]

/-- The node after which `u` links its own is the last one of the list. -/
theorem LinkStep.shape_append (hl : LinkStep s s' u i a t) (h : s.Shape g)
    (ha : g.place a = .listed) : s'.Shape (g.append u i) where
  head := by
    rw [hl.qhead, hl.taken]
    exact h.head
  tail := by
    obtain ⟨pre, b, post, hlist, hq⟩ := h.tail
    refine ⟨pre, b, post ++ i :: g.behind u, ?_, by rw [hl.qtail, hl.taken, hq]⟩
    show (g.dummy :: g.list) ++ i :: g.behind u = _
    rw [hlist]
    simp
  links := hl.links_append h h.links h.nodup ((h.listed a).mp ha) (by simp [ha])
  nodup := by
    show ((g.dummy :: g.list) ++ i :: g.behind u).Nodup
    have hown := h.heldNodup u
    rw [own, Pc.root_of_ready hl.ready] at hown
    refine List.nodup_append.mpr ⟨h.nodup, hown, fun b hb c hc => ?_⟩
    rintro rfl
    rw [← hl.mem_own h, (h.listed b).mpr hb] at hc
    cases hc
  listed := fun b => by
    show (if g.place b = .held u then Place.listed else g.place b) = .listed ↔
      b ∈ (g.dummy :: g.list) ++ i :: g.behind u
    rw [List.mem_append, ← hl.mem_own h, ← h.listed]
    by_cases hb : g.place b = .held u
    · simp [hb]
    · simp [hb]
  held := fun v b => by
    show (if g.place b = .held u then Place.listed else g.place b) = .held v ↔ _
    by_cases hv : v = u
    · rw [hv, hl.own_self]
      by_cases hb : g.place b = .held u
      · simp [hb]
      · simp [hb]
    · have hown : s'.own (g.append u i) v = s.own g v :=
        own_eq (by rw [hl.pc v hv]) (Function.update_of_ne hv ..)
      rw [hown, ← h.held]
      by_cases hb : g.place b = .held u
      · simp [hb, Ne.symm hv]
      · simp [hb]
  heldNodup := fun v => by
    by_cases hv : v = u
    · rw [hv, hl.own_self]
      exact List.nodup_nil
    · have hown : s'.own (g.append u i) v = s.own g v :=
        own_eq (by rw [hl.pc v hv]) (Function.update_of_ne hv ..)
      rw [hown]
      exact h.heldNodup v
  free := fun b => by
    rw [hl.free, ← h.free]
    show (if g.place b = .held u then Place.listed else g.place b) = .free ↔ _
    by_cases hb : g.place b = .held u
    · simp [hb]
    · simp [hb]
  single := fun v hv => by
    by_cases heq : v = u
    · rw [heq]
      exact Function.update_self ..
    · rw [hl.pc v heq] at hv
      exact (Function.update_of_ne heq ..).trans (h.single v hv)
  ready := fun v j hv => by
    by_cases heq : v = u
    · rw [heq, hl.ready'] at hv
      cases hv
    · rw [hl.pc v heq] at hv
      have hbehind : (g.append u i).behind v = g.behind v := Function.update_of_ne heq ..
      rw [hbehind]
      refine hl.links (h.ready v j hv) fun hmem => ?_
      have hheld := (h.held v a).mpr (by rw [own, Pc.root_of_ready hv]; exact hmem)
      rw [ha] at hheld
      cases hheld
  filled := fun v j t' hv => by
    by_cases heq : v = u
    · rw [heq, hl.filled'] at hv
      cases hv
    · rw [hl.pc v heq] at hv
      rw [hl.value]
      exact h.filled v j t' hv
  count := by
    have hvalue : s'.value = s.value := funext hl.value
    have hother : ∀ v, v ≠ u → (g.append u i).behind v = g.behind v :=
      fun v hv => Function.update_of_ne hv ..
    have hself : (g.append u i).behind u = [] := Function.update_self ..
    have hsum := sum_of_zero_at
      (fun v => ((g.behind v).map s.value : Multiset (Option T)))
      (fun v => (((g.append u i).behind v).map s.value : Multiset (Option T)))
      (fun v hv => by rw [hother v hv]) (by rw [hself]; rfl)
    have hcount := h.count
    rw [hsum] at hcount
    rw [hl.linked, hl.taken, hvalue, List.map_append, ← Multiset.coe_add, hcount]
    show _ = _ + ((g.list ++ i :: g.behind u).map s.value : Multiset (Option T)) + _
    rw [List.map_append, ← Multiset.coe_add, hl.map_own h]
    show _ + {some t} = _
    abel

theorem LinkStep.content_append (hl : LinkStep s s' u i a t) (h : s.Shape g) :
    s'.content (g.append u i) = s.content g ++ some t :: (g.behind u).map s.value := by
  have hvalue : s'.value = s.value := funext hl.value
  show s'.taken ++ (g.list ++ i :: g.behind u).map s'.value = _
  rw [hl.taken, hvalue, content, List.map_append, List.map_cons, h.filled u i t hl.filled]
  simp

/-- If the value comes last in the list, nothing has come with it. -/
theorem LinkStep.behind_of_append (hl : LinkStep s s' u i a t) (h : s.Shape g)
    (hnd : s'.linked.Nodup) (hlast : s.content g ++ some t :: (g.behind u).map s.value =
      s.linked.map some ++ [t].map some) : g.behind u = [] := by
  rcases List.eq_nil_or_concat (g.behind u) with hnil | ⟨rest, b, hb⟩
  · exact hnil
  · -- the last of these would have the same value
    rw [hb, List.concat_eq_append, List.map_append, ← List.cons_append, ← List.append_assoc]
      at hlast
    have hvalue : s.value b = some t := List.singleton_inj.mp (List.append_inj' hlast rfl).2
    have hmem : some t ∈ ((s.linked.map some : List (Option T)) : Multiset (Option T)) := by
      rw [h.count]
      refine Multiset.mem_add.mpr (Or.inr (Multiset.mem_sum.mpr ⟨u, Finset.mem_univ u, ?_⟩))
      rw [Multiset.mem_coe, hb, ← hvalue]
      exact List.mem_map_of_mem (by simp)
    have hin : t ∈ s.linked := by simpa using hmem
    rw [hl.linked, List.nodup_append] at hnd
    exact absurd rfl (hnd.2.2 t hin t List.mem_cons_self)

theorem LinkStep.keeps_append (hl : LinkStep s s' u i a t) (h : s.Shape g)
    (ha : g.place a = .listed) : Keeps s s' g (g.append u i) u where
  qhead := Or.inl hl.qhead
  qtail := Or.inl hl.qtail
  apart := fun heq hne => by
    rw [heq, hl.qtail]
    exact hne
  link := fun b _ c hc => by
    by_cases hb : b = a
    · rw [hb, hl.link] at hc
      cases hc
    · rw [hl.other b hb]
      exact hc
  value := fun b _ => hl.value b
  seen := fun v hv b hb => by
    rw [Seen] at hb ⊢
    show s'.SeenAt g.stamp v b (if g.place b = .held u then .listed else g.place b)
    by_cases hbu : g.place b = .held u
    · rw [if_pos hbu]
      trivial
    · rw [if_neg hbu]
      cases hplace : g.place b with
      | listed => trivial
      | free =>
          rw [hplace] at hb
          have hba : b ≠ a := by
            rintro rfl
            rw [ha] at hplace
            cases hplace
          show s'.queue.link b ≠ none
          rw [hl.other b hba]
          exact hb
      | held w =>
          rw [hplace] at hb hbu
          have hba : b ≠ a := by
            rintro rfl
            rw [ha] at hplace
            cases hplace
          have hw : w ≠ u := fun heq => hbu (by rw [heq])
          show g.stamp v < g.stamp w ∧ ((s'.pc w).ready = none → s'.queue.link b ≠ none)
          rw [hl.other b hba, hl.pc w hw]
          exact hb
  pc := hl.pc
  content := by
    rw [hl.content_append h]
    exact List.prefix_append ..
  inOrder := fun _ hord => by
    refine ⟨fun v => ?_, ?_⟩
    · by_cases hv : v = u
      · rw [hv]
        exact Function.update_self ..
      · exact (Function.update_of_ne hv ..).trans (hord.behind v)
    · rw [hl.content_append h, hord.behind, hord.content, hl.linked]
      simp
  back := fun hnd hord => by
    have hcontent := hord.content
    rw [hl.content_append h, hl.linked, List.map_append] at hcontent
    have hbehind := hl.behind_of_append h hnd hcontent
    rw [hbehind] at hcontent
    refine ⟨fun v => ?_, (List.append_inj' hcontent rfl).1⟩
    by_cases hv : v = u
    · rw [hv, hbehind]
    · exact (Function.update_of_ne hv ..).symm.trans (hord.behind v)

/-! ## A node comes behind one that is not in the list -/

theorem LinkStep.hang_behind_self : (g.hang u v i).behind u = [] := Function.update_self ..

theorem LinkStep.hang_behind_target (hv : v ≠ u) :
    (g.hang u v i).behind v = g.behind v ++ i :: g.behind u :=
  (Function.update_of_ne hv ..).trans (Function.update_self ..)

theorem LinkStep.hang_behind_of_ne {w : Fin n} (hwu : w ≠ u) (hwv : w ≠ v) :
    (g.hang u v i).behind w = g.behind w :=
  (Function.update_of_ne hwu ..).trans (Function.update_of_ne hwv ..)

theorem LinkStep.own_hang (hl : LinkStep s s' u i a t) {w : Fin n} (hwu : w ≠ u) (hwv : w ≠ v) :
    s'.own (g.hang u v i) w = s.own g w :=
  own_eq (by rw [hl.pc w hwu]) (hang_behind_of_ne hwu hwv)

theorem LinkStep.own_hang_target (hl : LinkStep s s' u i a t) (hv : v ≠ u) {j : Nat}
    (hj : (s.pc v).ready = some j) :
    s'.own (g.hang u v i) v = s.own g v ++ i :: g.behind u := by
  have hroot := Pc.root_of_ready hj
  rw [own, own, hl.pc v hv, hroot, hang_behind_target hv]
  rfl

theorem LinkStep.shape_hang (hl : LinkStep s s' u i a t) (h : s.Shape g) (hv : v ≠ u)
    (ha : g.place a = .held v) {j : Nat} (hj : (s.pc v).ready = some j) :
    s'.Shape (g.hang u v i) where
  head := by
    rw [hl.qhead, hl.taken]
    exact h.head
  tail := by
    rw [hl.qtail, hl.taken]
    exact h.tail
  links := hl.links h.links fun hmem => by
    have hlisted := (h.listed a).mpr hmem
    rw [ha] at hlisted
    cases hlisted
  nodup := h.nodup
  listed := fun b => by
    show (if g.place b = .held u then Place.held v else g.place b) = .listed ↔
      b ∈ g.dummy :: g.list
    rw [← h.listed]
    by_cases hb : g.place b = .held u
    · simp [hb]
    · simp [hb]
  held := fun w b => by
    show (if g.place b = .held u then Place.held v else g.place b) = .held w ↔ _
    by_cases hwu : w = u
    · rw [hwu, hl.own_self]
      by_cases hb : g.place b = .held u
      · simp [hb, hv]
      · simp [hb]
    · by_cases hwv : w = v
      · rw [hwv, hl.own_hang_target hv hj, List.mem_append, ← hl.mem_own h, ← h.held]
        by_cases hb : g.place b = .held u
        · simp [hb]
        · simp [hb]
      · rw [hl.own_hang hwu hwv, ← h.held]
        by_cases hb : g.place b = .held u
        · simp [hb, Ne.symm hwu, Ne.symm hwv]
        · simp [hb]
  heldNodup := fun w => by
    by_cases hwu : w = u
    · rw [hwu, hl.own_self]
      exact List.nodup_nil
    · by_cases hwv : w = v
      · rw [hwv, hl.own_hang_target hv hj]
        have hown := h.heldNodup u
        rw [own, Pc.root_of_ready hl.ready] at hown
        refine List.nodup_append.mpr ⟨h.heldNodup v, hown, fun b hb c hc => ?_⟩
        rintro rfl
        rw [← hl.mem_own h, (h.held v b).mpr hb] at hc
        exact hv (Place.held.inj hc)
      · rw [hl.own_hang hwu hwv]
        exact h.heldNodup w
  free := fun b => by
    rw [hl.free, ← h.free]
    show (if g.place b = .held u then Place.held v else g.place b) = .free ↔ _
    by_cases hb : g.place b = .held u
    · simp [hb]
    · simp [hb]
  single := fun w hw => by
    by_cases hwu : w = u
    · rw [hwu]
      exact hang_behind_self
    · rw [hl.pc w hwu] at hw
      have hwv : w ≠ v := by
        rintro rfl
        cases hw.symm.trans hj
      exact (hang_behind_of_ne hwu hwv).trans (h.single w hw)
  ready := fun w k hk => by
    by_cases hwu : w = u
    · rw [hwu, hl.ready'] at hk
      cases hk
    · rw [hl.pc w hwu] at hk
      have hmem : ∀ b, b ∈ k :: g.behind w ↔ g.place b = .held w := by
        intro b
        rw [h.held, own, Pc.root_of_ready hk]
      by_cases hwv : w = v
      · subst hwv
        have hnd := h.heldNodup w
        rw [own, Pc.root_of_ready hk] at hnd
        rw [hang_behind_target hwu]
        refine hl.links_append h (h.ready w k hk) hnd ((hmem a).mpr ha) ?_
        rw [ha]
        exact fun heq => hwu (Place.held.inj heq)
      · rw [hang_behind_of_ne hwu hwv]
        refine hl.links (h.ready w k hk) fun hin => ?_
        rw [hmem, ha] at hin
        exact hwv (Place.held.inj hin).symm
  filled := fun w k t' hw => by
    by_cases hwu : w = u
    · rw [hwu, hl.filled'] at hw
      cases hw
    · rw [hl.pc w hwu] at hw
      rw [hl.value]
      exact h.filled w k t' hw
  count := by
    have hvalue : s'.value = s.value := funext hl.value
    have hsum := sum_of_moved
      (fun w => ((g.behind w).map s.value : Multiset (Option T)))
      (fun w => (((g.hang u v i).behind w).map s.value : Multiset (Option T))) {some t} hv
      (fun w hwu hwv => by rw [hang_behind_of_ne hwu hwv]) (by rw [hang_behind_self]; rfl) (by
        rw [hang_behind_target hv, List.map_append, ← Multiset.coe_add, hl.map_own h])
    rw [hl.linked, hl.taken, hvalue, List.map_append, ← Multiset.coe_add, h.count]
    show _ = _ + (g.list.map s.value : Multiset (Option T)) + _
    rw [hsum]
    show _ + {some t} = _
    abel

theorem LinkStep.content_hang (hl : LinkStep s s' u i a t) :
    s'.content (g.hang u v i) = s.content g := by
  have hvalue : s'.value = s.value := funext hl.value
  show s'.taken ++ g.list.map s'.value = _
  rw [hl.taken, hvalue, content]

theorem LinkStep.keeps_hang (hl : LinkStep s s' u i a t) (hv : v ≠ u)
    (ha : g.place a = .held v) {j : Nat} (hj : (s.pc v).ready = some j)
    (hstamp : g.stamp u < g.stamp v) (hfresh : ¬ s.Fresh u) :
    Keeps s s' g (g.hang u v i) u where
  qhead := Or.inl hl.qhead
  qtail := Or.inl hl.qtail
  apart := fun heq hne => by
    rw [heq, hl.qtail]
    exact hne
  link := fun b _ c hc => by
    by_cases hb : b = a
    · rw [hb, hl.link] at hc
      cases hc
    · rw [hl.other b hb]
      exact hc
  value := fun b _ => hl.value b
  seen := fun w hw b hb => by
    rw [Seen] at hb ⊢
    show s'.SeenAt g.stamp w b (if g.place b = .held u then .held v else g.place b)
    have hready : (s'.pc v).ready ≠ none := by
      rw [hl.pc v hv, hj]
      simp
    by_cases hbu : g.place b = .held u
    · rw [if_pos hbu]
      rw [hbu] at hb
      exact ⟨Nat.lt_trans hb.1 hstamp, fun hnone => absurd hnone hready⟩
    · rw [if_neg hbu]
      cases hplace : g.place b with
      | listed => trivial
      | free =>
          rw [hplace] at hb
          have hba : b ≠ a := by
            rintro rfl
            rw [ha] at hplace
            cases hplace
          show s'.queue.link b ≠ none
          rw [hl.other b hba]
          exact hb
      | held v' =>
          rw [hplace] at hb hbu
          refine ⟨hb.1, fun hnone => ?_⟩
          have hv' : v' ≠ u := fun heq => hbu (by rw [heq])
          rw [hl.pc v' hv'] at hnone
          have hba : b ≠ a := by
            rintro rfl
            rw [ha] at hplace
            rw [← Place.held.inj hplace, hj] at hnone
            cases hnone
          rw [hl.other b hba]
          exact hb.2 hnone
  pc := hl.pc
  content := by rw [hl.content_hang]
  inOrder := fun hf => absurd hf hfresh
  back := fun _ hord => by
    have hbehind := hord.behind v
    rw [hang_behind_target hv] at hbehind
    simp at hbehind

end Threads

end Ccbase.Nice
