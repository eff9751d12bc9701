import Mathlib.Data.List.Basic

/-!
# Runs of a labelled transition system

A run records the labels of its steps, the latest last. A label carries what a
client sees of a step: the call, its arguments and what it returns.
-/

namespace Ccbase.Lib

variable {σ ℓ : Type}

inductive Run (step : σ → ℓ → σ → Prop) (s₀ : σ) : List ℓ → σ → Prop where
  | nil : Run step s₀ [] s₀
  | snoc {ls : List ℓ} {l : ℓ} {s s' : σ} (h : Run step s₀ ls s) (hs : step s l s') :
      Run step s₀ (ls ++ [l]) s'

namespace Run

variable {step : σ → ℓ → σ → Prop} {s₀ s : σ} {ls : List ℓ}

/-- What holds at the start and survives every step holds after every run.
The invariant may speak about the labels so far. -/
theorem inv {I : List ℓ → σ → Prop} (h : Run step s₀ ls s) (h₀ : I [] s₀)
    (hstep : ∀ ls s l s', I ls s → step s l s' → I (ls ++ [l]) s') : I ls s := by
  induction h with
  | nil => exact h₀
  | snoc _ hs ih => exact hstep _ _ _ _ ih hs

/-- An invariant of the state alone. -/
theorem state_inv {I : σ → Prop} (h : Run step s₀ ls s) (h₀ : I s₀)
    (hstep : ∀ s l s', I s → step s l s' → I s') : I s :=
  h.inv (I := fun _ s => I s) h₀ fun _ _ _ _ => hstep _ _ _

/-- A run of a system is one of every system that allows more. -/
theorem imp {step' : σ → ℓ → σ → Prop} (h : Run step s₀ ls s)
    (himp : ∀ s l s', step s l s' → step' s l s') : Run step' s₀ ls s := by
  induction h with
  | nil => exact .nil
  | snoc _ hs ih => exact ih.snoc (himp _ _ _ hs)

/-- The last step of a run. -/
theorem of_snoc {l : ℓ} (h : Run step s₀ (ls ++ [l]) s) :
    ∃ s₁, Run step s₀ ls s₁ ∧ step s₁ l s := by
  generalize hls : ls ++ [l] = ls' at h
  cases h with
  | nil => simp at hls
  | snoc h hs =>
      obtain ⟨rfl, hl⟩ := List.append_inj' hls rfl
      cases hl
      exact ⟨_, h, hs⟩

theorem of_nil (h : Run step s₀ [] s) : s = s₀ := by
  generalize hls : ([] : List ℓ) = ls' at h
  cases h with
  | nil => rfl
  | snoc h hs => simp at hls

theorem single {l : ℓ} (hs : step s₀ l s) : Run step s₀ [l] s := Run.nil.snoc hs

/-- A run continued by another one. -/
theorem append {ls' : List ℓ} {s' : σ} (h : Run step s₀ ls s) (h' : Run step s ls' s') :
    Run step s₀ (ls ++ ls') s' := by
  induction h' with
  | nil => simpa using h
  | snoc _ hs ih =>
      rw [← List.append_assoc]
      exact ih.snoc hs

/-- Labels that determine the next state determine the last one. -/
theorem det {s' : σ} (hdet : ∀ s l s₁ s₂, step s l s₁ → step s l s₂ → s₁ = s₂)
    (h : Run step s₀ ls s) (h' : Run step s₀ ls s') : s = s' := by
  induction h generalizing s' with
  | nil => exact h'.of_nil.symm
  | snoc _ hs ih =>
      obtain ⟨s₁, h₁, hs₁⟩ := of_snoc h'
      rw [ih h₁] at hs
      exact hdet _ _ _ _ hs hs₁

/-- The first step of a run. -/
theorem head_cases (h : Run step s₀ ls s) :
    (ls = [] ∧ s = s₀) ∨ ∃ l ls' s₁, ls = l :: ls' ∧ step s₀ l s₁ ∧ Run step s₁ ls' s := by
  induction h with
  | nil => exact .inl ⟨rfl, rfl⟩
  | @snoc ls l s s' _ hs ih =>
      rcases ih with ⟨rfl, rfl⟩ | ⟨l₁, ls', s₁, rfl, hs₁, hrun⟩
      · exact .inr ⟨l, [], s', rfl, hs, .nil⟩
      · exact .inr ⟨l₁, ls' ++ [l], s₁, rfl, hs₁, hrun.snoc hs⟩

/-- Of two runs of a deterministic system, one continues the other. -/
theorem comparable {ls' : List ℓ} {s' : σ}
    (hdet : ∀ s l₁ s₁ l₂ s₂, step s l₁ s₁ → step s l₂ s₂ → l₁ = l₂ ∧ s₁ = s₂)
    (h : Run step s₀ ls s) (h' : Run step s₀ ls' s') :
    (∃ ms, Run step s ms s') ∨ ∃ ms, Run step s' ms s := by
  induction h' with
  | nil => exact .inr ⟨ls, h⟩
  | @snoc ls' l s₁ s' _ hs ih =>
      rcases ih with ⟨ms, hms⟩ | ⟨ms, hms⟩
      · exact .inl ⟨ms ++ [l], hms.snoc hs⟩
      · rcases hms.head_cases with ⟨-, rfl⟩ | ⟨m, ms', s₂, -, hs₂, hrun⟩
        · exact .inl ⟨[l], Run.single hs⟩
        · obtain ⟨-, rfl⟩ := hdet _ _ _ _ _ hs hs₂
          exact .inr ⟨ms', hrun⟩

/-- `P` is kept by exactly the steps that are good. Then it holds after a run exactly if
all steps of the run are. -/
theorem kept_iff {I P : σ → Prop} {G : σ → ℓ → Prop}
    (hdet : ∀ s l s₁ s₂, step s l s₁ → step s l s₂ → s₁ = s₂) (h : Run step s₀ ls s)
    (hI : I s₀) (hP : P s₀)
    (hstep : ∀ s l s', I s → step s l s' → I s' ∧ (P s' ↔ P s ∧ G s l)) :
    I s ∧ (P s ↔ Run (fun s l s' => step s l s' ∧ G s l) s₀ ls s) := by
  induction h with
  | nil => exact ⟨hI, iff_of_true hP .nil⟩
  | snoc h hs ih =>
      obtain ⟨hIs, hPs⟩ := ih
      obtain ⟨hI', hP'⟩ := hstep _ _ _ hIs hs
      refine ⟨hI', ?_⟩
      rw [hP', hPs]
      constructor
      · rintro ⟨hrun, hgood⟩
        exact hrun.snoc ⟨hs, hgood⟩
      · intro hrun
        obtain ⟨s₁, hrun₁, -, hgood⟩ := of_snoc hrun
        have hrun₁' : Run step s₀ _ s₁ := hrun₁.imp fun _ _ _ h => h.1
        rw [det hdet h hrun₁']
        exact ⟨hrun₁, hgood⟩

/-- The invariant is kept by the good steps, and `P` holds after a step exactly if it is a
good one. Then it holds all along a run exactly if all steps of the run are. -/
theorem always_iff {I P : σ → Prop} {G : σ → ℓ → Prop}
    (hdet : ∀ s l s₁ s₂, step s l s₁ → step s l s₂ → s₁ = s₂) (h : Run step s₀ ls s)
    (hI : I s₀) (hP : P s₀)
    (hstep : ∀ s l s', I s → step s l s' → (P s' ↔ G s l) ∧ (G s l → I s')) :
    (∀ pre s₁, pre <+: ls → Run step s₀ pre s₁ → P s₁) ↔
      Run (fun s l s' => step s l s' ∧ G s l) s₀ ls s := by
  have hinv : ∀ {ls s}, Run (fun s l s' => step s l s' ∧ G s l) s₀ ls s → I s := fun h =>
    h.state_inv hI fun s l s' hIs hs => (hstep s l s' hIs hs.1).2 hs.2
  induction h with
  | nil =>
      refine iff_of_true (fun pre s₁ hpre hrun => ?_) .nil
      rw [List.prefix_nil.mp hpre] at hrun
      rwa [hrun.of_nil]
  | @snoc ls l s s' h hs ih =>
      constructor
      · intro hall
        have hgood := ih.mp fun pre s₁ hpre => hall pre s₁ (hpre.trans (List.prefix_append _ _))
        have hlast := hall _ s' (List.prefix_refl _) (h.snoc hs)
        exact hgood.snoc ⟨hs, ((hstep s l s' (hinv hgood) hs).1).mp hlast⟩
      · intro hgood
        obtain ⟨s₂, hgood, hs₂, hG⟩ := of_snoc hgood
        obtain rfl := det hdet h (hgood.imp fun _ _ _ h => h.1)
        intro pre s₁ hpre hrun
        rcases List.prefix_concat_iff.mp hpre with rfl | hpre
        · obtain rfl := det hdet (h.snoc hs) hrun
          exact ((hstep _ l _ (hinv hgood) hs).1).mpr hG
        · exact ih.mpr hgood pre s₁ hpre hrun

/-- What holds after a run and cannot be regained holds after each of its steps. -/
theorem with_final {Q : σ → Prop} (h : Run step s₀ ls s)
    (hQ : ∀ s l s', step s l s' → Q s' → Q s) (hs : Q s) :
    Run (fun s l s' => step s l s' ∧ Q s') s₀ ls s := by
  induction h with
  | nil => exact .nil
  | snoc _ hstep ih => exact (ih (hQ _ _ _ hstep hs)).snoc ⟨hstep, hs⟩

/-- All labels in turn, as long as each is allowed where it is taken. -/
def exec (f : σ → ℓ → Option σ) (allowed : σ → ℓ → Prop) [∀ s l, Decidable (allowed s l)]
    (s : σ) : List ℓ → Option σ
  | [] => some s
  | l :: ls => if allowed s l then (f s l).bind fun s => exec f allowed s ls else none

/-- An execution is a run. -/
theorem of_exec {f : σ → ℓ → Option σ} {allowed : σ → ℓ → Prop}
    [∀ s l, Decidable (allowed s l)] {ls : List ℓ} :
    ∀ {s s' : σ}, exec f allowed s ls = some s' →
      Run (fun s l s' => f s l = some s' ∧ allowed s l) s ls s' := by
  induction ls with
  | nil =>
      intro s s' h
      cases h
      exact .nil
  | cons l ls ih =>
      intro s s' h
      simp only [exec] at h
      split at h
      · rename_i hallowed
        obtain ⟨s₁, h₁, h⟩ := Option.bind_eq_some_iff.mp h
        have hfirst : Run (fun s l s' => f s l = some s' ∧ allowed s l) s [l] s₁ :=
          Run.single ⟨h₁, hallowed⟩
        exact hfirst.append (ih h)
      · cases h

/-- A run to a state with a property, from an execution that ends in one. -/
theorem exists_of_exec {f : σ → ℓ → Option σ} {allowed : σ → ℓ → Prop}
    [∀ s l, Decidable (allowed s l)] {P : σ → Prop} [DecidablePred P] {s : σ}
    (h : (exec f allowed s ls).any (fun s => decide (P s)) = true) :
    ∃ s', Run (fun s l s' => f s l = some s' ∧ allowed s l) s ls s' ∧ P s' := by
  cases hexec : exec f allowed s ls with
  | none =>
      rw [hexec] at h
      cases h
  | some s' =>
      rw [hexec] at h
      exact ⟨s', of_exec hexec, of_decide_eq_true h⟩

end Run

end Ccbase.Lib
