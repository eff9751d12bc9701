import Ccbase.Application.SkipListOps

/-!
# The null pointer of `delete_element`

After the levels are relinked, `delete_element` writes `prev` of the next node unless
that is the header. The last node has no next node, and is not guarded: there the
write goes through a null pointer. No other access of a call does.
-/

namespace Ccbase.Application

open Ccbase.Lib

variable {K V : Type} [LinearOrder K]

namespace SkipList

variable {s s' : SkipList K V} {c pre suf : List (Item K V)} {key : K}

/-- A node other than the header has the key. -/
def Stored (s : SkipList K V) (key : K) : Prop :=
  ∃ p x, p ≠ s.header ∧ s.heap.get p = some x ∧ x.key = key

/-- The key is the greatest that is stored. -/
def IsLast (s : SkipList K V) (key : K) : Prop :=
  s.Stored key ∧ ∀ k, s.Stored k → k ≤ key

/-- Deletions are not of the last key. -/
def Spares (s : SkipList K V) : Op K V → Prop
  | .delete key => ¬ s.IsLast key
  | _ => True

theorem Repr.stored_iff (hr : Repr s c) : s.Stored key ↔ ∃ e ∈ c, e.key = key := by
  constructor
  · rintro ⟨p, x, hne, hx, hkey⟩
    have hsome : info s.heap p ≠ none := by
      rw [info, hx]
      simp
    rcases hr.only p hsome with hp | hp
    · exact absurd hp hne
    · obtain ⟨e, he, rfl⟩ := List.mem_map.mp hp
      obtain ⟨y, hy, hykey, -⟩ := get_of_info (hr.items e he)
      cases hx.symm.trans hy
      exact ⟨e, he, hykey.symm.trans hkey⟩
  · rintro ⟨e, he, hkey⟩
    obtain ⟨x, hx, hxkey, -⟩ := get_of_info (hr.items e he)
    refine ⟨e.ptr, x, ?_, hx, hxkey.trans hkey⟩
    intro heq
    exact hr.fresh (heq ▸ List.mem_map_of_mem he)

theorem Repr.isLast_iff {e : Item K V} (hr : Repr s (pre ++ e :: suf))
    (hpre : ∀ a ∈ pre, a.key < e.key) (hsuf : ∀ a ∈ suf, e.key < a.key) :
    s.IsLast e.key ↔ suf = [] := by
  constructor
  · rintro ⟨-, hall⟩
    cases suf with
    | nil => rfl
    | cons a suf =>
        have ha : a ∈ a :: suf := List.mem_cons_self
        have hle := hall a.key (hr.stored_iff.mpr
          ⟨a, List.mem_append_right pre (List.mem_cons_of_mem e ha), rfl⟩)
        exact absurd (hsuf a ha) (not_lt_of_ge hle)
  · rintro rfl
    refine ⟨hr.stored_iff.mpr ⟨e, by simp, rfl⟩, fun k hk => ?_⟩
    obtain ⟨a, ha, rfl⟩ := hr.stored_iff.mp hk
    rcases List.mem_append.mp ha with ha | ha
    · exact (hpre a ha).le
    · rw [List.mem_singleton.mp ha]

/-- A deletion runs to its end; the null pointer is written through exactly if the key is
the last. -/
theorem deleteElement_fault (hr : Repr s c) (key : K) :
    ∃ s', s.deleteElement key = some s' ∧
      (s'.fault = true ↔ s.fault = true ∨ s.IsLast key) := by
  rcases split_cases key hr.sorted with
    ⟨pre, suf, rfl, hpre, hsuf⟩ | ⟨pre, e, suf, rfl, rfl, hpre, hsuf⟩
  · refine ⟨s, deleteElement_absent hr hpre hsuf, ?_⟩
    have habsent : ¬ s.IsLast key := by
      rintro ⟨hstored, -⟩
      obtain ⟨e, he, hkey⟩ := hr.stored_iff.mp hstored
      rcases List.mem_append.mp he with he | he
      · exact absurd hkey (hpre e he).ne
      · exact absurd hkey.symm (hsuf e he).ne
    exact (or_iff_left habsent).symm
  · obtain ⟨s', hdelete, -, -, hfault⟩ := deleteElement_present hr hpre hsuf
    refine ⟨s', hdelete, ?_⟩
    rw [hfault, hr.isLast_iff hpre hsuf, Bool.or_eq_true, List.isEmpty_iff]

theorem insertElement_fault {value : V} {l r : Nat}
    (h : s.insertElement key value l = some (r, s')) : s'.fault = s.fault := by
  rw [insertElement] at h
  obtain ⟨⟨current, update⟩, -, h⟩ := Option.bind_eq_some_iff.mp h
  obtain ⟨found, -, h⟩ := Option.bind_eq_some_iff.mp h
  cases found with
  | some p =>
      cases h
      rfl
  | none =>
      obtain ⟨u, -, h⟩ := Option.bind_eq_some_iff.mp h
      obtain ⟨h₁, -, h⟩ := Option.bind_eq_some_iff.mp h
      obtain ⟨h₂, -, h⟩ := Option.map_eq_some_iff.mp h
      cases h
      rfl

/-- The calls but for the deletion of the last key write through no null pointer. -/
theorem Step.fault_iff {l : Op K V × Outcome V} (hr : Repr s c) (h : Step s l s') :
    s'.fault = false ↔ s.fault = false ∧ s.Spares l.1 := by
  obtain ⟨op, out⟩ := l
  have hexec : s.exec op = some (out, s') := h
  cases op with
  | insert key value l =>
      obtain ⟨⟨r, s''⟩, hinsert, heq⟩ := Option.map_eq_some_iff.mp hexec
      cases heq
      rw [insertElement_fault hinsert]
      exact (and_iff_left trivial).symm
  | delete key =>
      obtain ⟨s'', hdelete, hfault⟩ := deleteElement_fault hr key
      rw [exec, hdelete] at hexec
      cases hexec
      rw [← Bool.not_eq_true, ← Bool.not_eq_true, hfault, not_or]
      rfl
  | search key =>
      obtain ⟨found, -, hexec⟩ := Option.bind_eq_some_iff.mp hexec
      cases found with
      | none =>
          cases hexec
          exact (and_iff_left trivial).symm
      | some p =>
          obtain ⟨x, -, heq⟩ := Option.map_eq_some_iff.mp hexec
          cases heq
          exact (and_iff_left trivial).symm
  | size =>
      cases hexec
      exact (and_iff_left trivial).symm

end SkipList

namespace SkipList

theorem Step.det {s s₁ s₂ : SkipList K V} {l : Op K V × Outcome V} (h₁ : Step s l s₁)
    (h₂ : Step s l s₂) : s₁ = s₂ := by
  rw [Step, h₁] at h₂
  cases h₂
  rfl

/-- No call of a run has written through a null pointer exactly if none has deleted the
last key; then the next deletion does so exactly if it is of the last key. -/
theorem run_fault_iff {maxLevel : Nat} {k : K} {v : V} {ls : List (Op K V × Outcome V)}
    {s : SkipList K V}
    (h : Run (fun s l s' => Step s l s' ∧ s.Allowed l.1) (new maxLevel k v) ls s) :
    (s.fault = false ↔ Run (fun s l s' => (Step s l s' ∧ s.Allowed l.1) ∧ s.Spares l.1)
      (new maxLevel k v) ls s) ∧
    (s.fault = false → ∀ key,
      (∃ s', s.deleteElement key = some s' ∧ s'.fault = false) ↔ ¬ s.IsLast key) := by
  have hnew : ∃ c f, Repr (new maxLevel k v) c ∧ Rel c f := ⟨[], _, new_spec maxLevel k v⟩
  have hstep : ∀ (s : SkipList K V) (l : Op K V × Outcome V) (s' : SkipList K V),
      (∃ c f, Repr s c ∧ Rel c f) → Step s l s' ∧ s.Allowed l.1 →
      (∃ c f, Repr s' c ∧ Rel c f) ∧ (s'.fault = false ↔ s.fault = false ∧ s.Spares l.1) := by
    rintro s l s' ⟨c, f, hr, hrel⟩ ⟨hs, hallowed⟩
    refine ⟨?_, hs.fault_iff hr⟩
    obtain ⟨out, s'', f', c', hexec, -, -, hr', hrel'⟩ := exec_spec hr hrel hallowed
    rw [Step, hexec] at hs
    cases hs
    exact ⟨c', f', hr', hrel'⟩
  obtain ⟨⟨c, f, hr, -⟩, hruns⟩ := h.kept_iff (P := fun s => s.fault = false)
    (G := fun s l => s.Spares l.1) (fun _ _ _ _ h₁ h₂ => h₁.1.det h₂.1) hnew rfl hstep
  refine ⟨hruns, fun hsafe key => ?_⟩
  obtain ⟨s', hdelete, hfault⟩ := deleteElement_fault hr key
  rw [hsafe] at hfault
  constructor
  · rintro ⟨s'', hdelete', hsafe'⟩ hlast
    rw [hdelete] at hdelete'
    cases hdelete'
    rw [hfault.mpr (Or.inr hlast)] at hsafe'
    cases hsafe'
  · intro hlast
    refine ⟨s', hdelete, ?_⟩
    rw [← Bool.not_eq_true, hfault]
    rintro (h | h)
    · cases h
    · exact hlast h

/-- Two keys, of which the first can be deleted. -/
theorem run_fault_iff_two : ∃ s : SkipList Nat Nat,
    Run (fun s l s' => Step s l s' ∧ s.Allowed l.1) (new 3 0 0)
      [(.insert 5 50 1, .inserted 0), (.insert 8 80 2, .inserted 0)] s ∧ s.fault = false ∧
    ((∃ s', s.deleteElement 5 = some s' ∧ s'.fault = false) ↔ ¬ s.IsLast 5) := by
  have hexec : (Run.exec stepFn (fun s l => s.Allowed l.1) (new 3 0 0)
      [(.insert 5 50 1, .inserted 0), (.insert 8 (80 : Nat) 2, .inserted 0)]).any
        fun s : SkipList Nat Nat => !s.fault := by decide +kernel
  obtain ⟨s, hs, hsafe⟩ := (Option.any_eq_true _ _).mp hexec
  have hrun : Run (fun s l s' => Step s l s' ∧ s.Allowed l.1) (new 3 0 0) _ s :=
    (Run.of_exec hs).imp fun _ _ _ h => ⟨step_of_stepFn h.1, h.2⟩
  have hfault : s.fault = false := by simpa using hsafe
  exact ⟨s, hrun, hfault, (run_fault_iff hrun).2 hfault 5⟩

/-- The only key of a list is deleted. -/
theorem delete_only_faults : ∃ s : SkipList Nat Nat,
    Run (fun s l s' => Step s l s' ∧ s.Allowed l.1) (new 3 0 0)
      [(.insert 5 50 1, .inserted 0)] s ∧
    ¬ ∃ s', s.deleteElement 5 = some s' ∧ s'.fault = false := by
  have hexec : (Run.exec stepFn (fun s l => s.Allowed l.1) (new 3 0 0)
      [(.insert 5 (50 : Nat) 1, .inserted 0)]).any
        fun s : SkipList Nat Nat => (s.deleteElement 5).all SkipList.fault := by decide +kernel
  obtain ⟨s, hs, hall⟩ := (Option.any_eq_true _ _).mp hexec
  have hrun : Run (fun s l s' => Step s l s' ∧ s.Allowed l.1) (new 3 0 0) _ s :=
    (Run.of_exec hs).imp fun _ _ _ h => ⟨step_of_stepFn h.1, h.2⟩
  refine ⟨s, hrun, ?_⟩
  rintro ⟨s', hdelete, hsafe⟩
  rw [hdelete, Option.all_some, hsafe] at hall
  cases hall

end SkipList

end Ccbase.Application
