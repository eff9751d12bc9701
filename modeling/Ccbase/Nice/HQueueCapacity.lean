import Ccbase.Nice.HQueue
import Mathlib.Data.List.Perm.Subperm

/-!
# The capacity of `HQueue`

Both searches of `Enqueue` begin at node 1 or behind it. Node 0 is the first dummy.
As long as it is, all other nodes can hold values. The first `Dequeue` that returns
a value gives node 0 back, where no search looks, and another node is the dummy from
then on.
-/

namespace Ccbase.Nice

open Ccbase.Lib

variable {T : Type}

/-- No value has been taken out of the queue. -/
def NeverTook (ls : List (Op T × Outcome T)) : Prop :=
  ∀ v, ((.dequeue, .dequeued (some v)) : Op T × Outcome T) ∉ ls

theorem NeverTook.snoc {ls : List (Op T × Outcome T)} {l : Op T × Outcome T}
    (hl : ∀ v, l ≠ (.dequeue, .dequeued (some v))) : NeverTook (ls ++ [l]) ↔ NeverTook ls := by
  constructor
  · intro h v hv
    exact h v (List.mem_append_left _ hv)
  · intro h v hv
    rcases List.mem_append.mp hv with hv | hv
    · exact h v hv
    · exact hl v (List.mem_singleton.mp hv).symm

/-- The nodes of a list that avoids node 0. -/
theorem length_le_of_nodup {c : List Nat} {sz : Nat} (hnodup : c.Nodup)
    (hbound : ∀ i ∈ c, 1 ≤ i ∧ i < sz) : c.length ≤ sz - 1 := by
  have hsub : c ⊆ List.range' 1 (sz - 1) := by
    intro i hi
    have := hbound i hi
    rw [List.mem_range'_1]
    omega
  have hle := (hnodup.subperm hsub).length_le
  rwa [List.length_range'] at hle

theorem le_length_of_forall {c : List Nat} {sz : Nat} (hall : ∀ i, 1 ≤ i → i < sz → i ∈ c) :
    sz - 1 ≤ c.length := by
  have hsub : List.range' 1 (sz - 1) ⊆ c := by
    intro i hi
    rw [List.mem_range'_1] at hi
    exact hall i hi.1 (by omega)
  have hnodup : (List.range' 1 (sz - 1)).Nodup := List.nodup_range'
  have hle := (hnodup.subperm hsub).length_le
  rwa [List.length_range'] at hle

namespace HQueue

variable {q : HQueue T}

/-- Where node 0 is: it is the dummy until a value is taken, and then in no list. -/
structure Placed (q : HQueue T) (ls : List (Op T × Outcome T)) (d : Nat) (c : List Nat)
    (l : List T) : Prop extends q.Holds d c l where
  first : NeverTook ls → d = 0
  lost : ¬ NeverTook ls → 0 ∉ d :: c

theorem Holds.length_eq {d : Nat} {c : List Nat} {l : List T} (h : q.Holds d c l) :
    c.length = l.length := by
  have := congrArg List.length h.values
  rwa [List.length_map, List.length_map] at this

/-- While node 0 is the dummy, an `Enqueue` is refused when all others hold values; later,
when all others but the dummy do. -/
theorem Placed.enqueue_refused {ls : List (Op T × Outcome T)} {d : Nat} {c : List Nat}
    {l : List T} (h : q.Placed ls d c l) (t : T) :
    (NeverTook ls → ((∃ q', q.enqueue t = some (false, q')) ↔ l.length = q.queueSize - 1)) ∧
      (¬ NeverTook ls → l.length + 1 ≤ q.queueSize - 1 ∧
        ((∃ q', q.enqueue t = some (false, q')) ↔ l.length + 1 = q.queueSize - 1)) := by
  have hlen := h.length_eq
  have hpos : ∀ {i : Nat} {c' : List Nat}, 0 ∉ c' → i ∈ c' → 1 ≤ i := by
    intro i c' hzero hi
    rcases Nat.eq_zero_or_pos i with rfl | hi'
    · exact absurd hi hzero
    · exact hi'
  rcases h.toHolds.enqueue t with ⟨i, q', hcall, hi, hsize, hq'⟩ | ⟨q', hcall, -, -, hall⟩
  · have htrue : ¬ ∃ q', q.enqueue t = some (false, q') := by
      rintro ⟨q'', hq''⟩
      rw [hcall] at hq''
      cases hq''
    refine ⟨fun hnever => ?_, fun htook => ?_⟩
    · have hd := h.first hnever
      have hnodup := (List.nodup_cons.mp hq'.nodup)
      rw [hd] at hnodup
      have hle := length_le_of_nodup hnodup.2 fun j hj =>
        ⟨hpos hnodup.1 hj, hsize ▸ hq'.bound j (List.mem_cons_of_mem d hj)⟩
      rw [List.length_append, List.length_singleton] at hle
      exact iff_of_false htrue (by omega)
    · have hzero : 0 ∉ d :: (c ++ [i]) := by
        rw [← List.cons_append, List.mem_append, List.mem_singleton]
        rintro (hz | hz)
        · exact h.lost htook hz
        · omega
      have hle := length_le_of_nodup hq'.nodup fun j hj =>
        ⟨hpos hzero hj, hsize ▸ hq'.bound j hj⟩
      rw [List.length_cons, List.length_append, List.length_singleton] at hle
      exact ⟨by omega, iff_of_false htrue (by omega)⟩
  · have hfalse : ∃ q', q.enqueue t = some (false, q') := ⟨q', hcall⟩
    refine ⟨fun hnever => ?_, fun htook => ?_⟩
    · have hd := h.first hnever
      have hnodup := List.nodup_cons.mp h.nodup
      rw [hd] at hnodup
      have hle := length_le_of_nodup hnodup.2 fun j hj =>
        ⟨hpos hnodup.1 hj, h.bound j (List.mem_cons_of_mem d hj)⟩
      have hge : q.queueSize - 1 ≤ c.length := le_length_of_forall fun j hj hlt => by
        rcases List.mem_cons.mp (hall j hj hlt) with hjd | hjc
        · omega
        · exact hjc
      exact iff_of_true hfalse (by omega)
    · have hle := length_le_of_nodup h.nodup fun j hj =>
        ⟨hpos (h.lost htook) hj, h.bound j hj⟩
      have hge := le_length_of_forall hall
      rw [List.length_cons] at hle hge
      exact ⟨by omega, iff_of_true hfalse (by omega)⟩

theorem Placed.step {ls : List (Op T × Outcome T)} {d : Nat} {c : List Nat} {l : List T}
    (h : q.Placed ls d c l) (op : Op T) :
    ∃ out q' d' c' l', q.exec op = some (out, q') ∧ Spec l op out l' ∧
      q'.queueSize = q.queueSize ∧ q'.Placed (ls ++ [(op, out)]) d' c' l' := by
  cases op with
  | enqueue t =>
      have hsnoc : ∀ b, NeverTook (ls ++ [(.enqueue t, .enqueued b)]) ↔ NeverTook ls :=
        fun b => NeverTook.snoc fun v => by simp
      rcases h.toHolds.enqueue t with ⟨i, q', hcall, hi, hsize, hq'⟩ | ⟨q', hcall, hsize, hq', -⟩
      · refine ⟨.enqueued true, q', d, c ++ [i], l ++ [t], ?_, .enqueued, hsize, hq', ?_, ?_⟩
        · rw [exec, hcall]
          rfl
        · rw [hsnoc]
          exact h.first
        · rw [hsnoc, ← List.cons_append, List.mem_append, List.mem_singleton]
          rintro htook (hz | hz)
          · exact h.lost htook hz
          · omega
      · refine ⟨.enqueued false, q', d, c, l, ?_, .refused, hsize, hq', ?_, ?_⟩
        · rw [exec, hcall]
          rfl
        · rw [hsnoc]
          exact h.first
        · rw [hsnoc]
          exact h.lost
  | dequeue =>
      cases c with
      | nil =>
          obtain ⟨rfl, hcall⟩ := h.toHolds.dequeue_nil
          have hsnoc : NeverTook (ls ++ [(.dequeue, .dequeued none)]) ↔ NeverTook ls :=
            NeverTook.snoc fun v => by simp
          refine ⟨.dequeued none, q, d, [], [], ?_, .nothing, rfl, h.toHolds, ?_, ?_⟩
          · rw [exec, hcall]
            rfl
          · rw [hsnoc]
            exact h.first
          · rw [hsnoc]
            exact h.lost
      | cons n c =>
          obtain ⟨t, l', q', rfl, hcall, hsize, hq'⟩ := h.toHolds.dequeue_cons
          have htook : ¬ NeverTook (ls ++ [(.dequeue, .dequeued (some t))]) := by
            intro hnever
            exact hnever t (List.mem_append_right _ (List.mem_singleton.mpr rfl))
          refine ⟨.dequeued (some t), q', n, c, l', ?_, .dequeued, hsize, hq', ?_, ?_⟩
          · rw [exec, hcall]
            rfl
          · intro hnever
            exact absurd hnever htook
          · -- node 0 was the dummy, or was lost before
            intro _ hz
            by_cases hnever : NeverTook ls
            · have hnodup := List.nodup_cons.mp h.nodup
              rw [h.first hnever] at hnodup
              exact hnodup.1 hz
            · exact h.lost hnever (List.mem_cons_of_mem d hz)
  | empty =>
      have hsnoc : NeverTook (ls ++ [(.empty, .empty q.empty)]) ↔ NeverTook ls :=
        NeverTook.snoc fun v => by simp
      refine ⟨_, q, d, c, l, rfl, ?_, rfl, h.toHolds, ?_, ?_⟩
      · rw [empty_spec ⟨d, c, h.toHolds⟩]
        exact .empty
      · rw [hsnoc]
        exact h.first
      · rw [hsnoc]
        exact h.lost

theorem init_placed {sz : Int} (h : init sz = some q) :
    q.queueSize = sz.toNat ∧ ∃ d c, q.Placed [] d c [] := by
  obtain ⟨d, c, hholds⟩ := init_spec h
  rw [init] at h
  split at h
  · cases h
  · cases h
    refine ⟨rfl, d, c, hholds, fun _ => ?_, fun htook => ?_⟩
    · exact (Option.some.inj hholds.head).symm
    · exact absurd (fun v hv => by simp at hv) htook

end HQueue

/-- After every run from `Init(sz)`: a full queue has `sz - 1` values exactly if no value
has been taken out yet, or there are not `sz - 2` values in it. -/
theorem hqueue_capacity {sz : Int} (hsz : 2 ≤ sz) {q₀ q : HQueue T}
    (hinit : HQueue.init sz = some q₀) {ls : List (Op T × Outcome T)}
    (h : Run HQueue.Step q₀ ls q) :
    ∃ l, Run (fun l call l' => Spec l call.1 call.2 l') [] ls l ∧ q.Rel l ∧
      ∀ t, ((∃ q', q.enqueue t = some (false, q')) ↔ (l.length : Int) = sz - 1) ↔
        NeverTook ls ∨ (l.length : Int) ≠ sz - 2 := by
  obtain ⟨hsize₀, d₀, c₀, hplaced₀⟩ := HQueue.init_placed hinit
  obtain ⟨hsize, d, c, l, hl, hplaced⟩ : q.queueSize = sz.toNat ∧ ∃ d c l,
      Run (fun l call l' => Spec l call.1 call.2 l') [] ls l ∧ q.Placed ls d c l := by
    refine h.inv (I := fun ls q => q.queueSize = sz.toNat ∧ ∃ d c l,
      Run (fun l call l' => Spec l call.1 call.2 l') [] ls l ∧ q.Placed ls d c l) ?_ ?_
    · exact ⟨hsize₀, d₀, c₀, [], .nil, hplaced₀⟩
    · rintro ls q ⟨op, out⟩ q' ⟨hsize, d, c, l, hl, hplaced⟩ hstep
      obtain ⟨out', q'', d', c', l', hexec, hspec, hsize', hplaced'⟩ := hplaced.step op
      rw [HQueue.Step, hexec] at hstep
      cases hstep
      exact ⟨hsize'.trans hsize, d', c', l', hl.snoc hspec, hplaced'⟩
  refine ⟨l, hl, ⟨d, c, hplaced.toHolds⟩, fun t => ?_⟩
  obtain ⟨hfirst, hlost⟩ := hplaced.enqueue_refused t
  by_cases hnever : NeverTook ls
  · rw [hfirst hnever, hsize]
    exact iff_of_true (by omega) (Or.inl hnever)
  · obtain ⟨hle, hiff⟩ := hlost hnever
    rw [hiff, hsize]
    constructor
    · intro hsame
      refine Or.inr ?_
      omega
    · rintro (hnever' | hne)
      · exact absurd hnever' hnever
      · constructor <;> intro <;> omega

/-- One value has gone through a queue of three nodes. -/
theorem hqueue_capacity_three : ∃ q₀ q : HQueue Nat, HQueue.init 3 = some q₀ ∧
    Run HQueue.Step q₀ [(.enqueue 5, .enqueued true), (.dequeue, .dequeued (some 5))] q ∧
      ∃ l : List Nat, q.Rel l ∧
        (((∃ q', q.enqueue 6 = some (false, q')) ↔ (l.length : Int) = 3 - 1) ↔
          NeverTook [((.enqueue 5, .enqueued true) : Op Nat × Outcome Nat),
            (.dequeue, .dequeued (some 5))] ∨ (l.length : Int) ≠ 3 - 2) := by
  have hexec : ((HQueue.init 3).bind fun q₀ => Run.exec HQueue.stepFn (fun _ _ => True) q₀
      [(.enqueue 5, .enqueued true), (.dequeue, .dequeued (some (5 : Nat)))]).isSome := by
    decide +kernel
  obtain ⟨q, hq⟩ := Option.isSome_iff_exists.mp hexec
  obtain ⟨q₀, hinit, hq⟩ := Option.bind_eq_some_iff.mp hq
  have hrun : Run HQueue.Step q₀ _ q :=
    (Run.of_exec hq).imp fun _ _ _ h => HQueue.step_of_stepFn h.1
  obtain ⟨l, -, hrel, hcap⟩ := hqueue_capacity (by decide) hinit hrun
  exact ⟨q₀, q, hinit, hrun, l, hrel, hcap 6⟩

/-- A queue of two nodes refuses every value once one has gone through it. -/
theorem hqueue_capacity_lost : ∃ q₀ q : HQueue Nat, HQueue.init 2 = some q₀ ∧
    Run HQueue.Step q₀ [(.enqueue 5, .enqueued true), (.dequeue, .dequeued (some 5))] q ∧
      q.Rel [] ∧ ¬ ((∃ q', q.enqueue 6 = some (false, q')) ↔
        (([] : List Nat).length : Int) = 2 - 1) := by
  have hexec : ((HQueue.init 2).bind fun q₀ => Run.exec HQueue.stepFn (fun _ _ => True) q₀
      [(.enqueue 5, .enqueued true), (.dequeue, .dequeued (some (5 : Nat))),
        (.enqueue 6, .enqueued false)]).isSome := by decide +kernel
  obtain ⟨q', hq⟩ := Option.isSome_iff_exists.mp hexec
  obtain ⟨q₀, hinit, hq⟩ := Option.bind_eq_some_iff.mp hq
  have hrun' : Run HQueue.Step q₀ _ q' :=
    (Run.of_exec hq).imp fun _ _ _ h => HQueue.step_of_stepFn h.1
  obtain ⟨q, hrun, hlast⟩ := Run.of_snoc (show Run _ _ ([_, _] ++ [_]) _ from hrun')
  obtain ⟨l, hl, hrel⟩ := (hqueue_refines hinit hrun).1
  have hnil : l = [] := by
    obtain ⟨l₁, h₁, hdeq⟩ := Run.of_snoc (show Run _ _ ([_] ++ [_]) _ from hl)
    obtain ⟨l₀, h₀, henq⟩ := Run.of_snoc (show Run _ _ ([] ++ [_]) _ from h₁)
    obtain rfl := h₀.of_nil
    cases henq
    cases hdeq
    rfl
  rw [hnil] at hrel
  have hrefused : ∃ q', q.enqueue 6 = some (false, q') := by
    obtain ⟨r, hr, hout⟩ := Option.map_eq_some_iff.mp (show (q.enqueue 6).map _ = _ from hlast)
    obtain ⟨b, q''⟩ := r
    cases hout
    exact ⟨_, hr⟩
  refine ⟨q₀, q, hinit, hrun, hrel, ?_⟩
  rw [iff_true_left hrefused]
  decide

end Ccbase.Nice
