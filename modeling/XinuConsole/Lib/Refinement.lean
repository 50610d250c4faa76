import XinuConsole.Lib.Run

/-!
Refinement with an abstraction function: what a step of the system shows is what some
steps of its specification show.
-/

namespace XinuConsole.Lib

variable {σ ι α κ ο : Type}

/-- Every step from a state of `I` is a run of the specification with the same
observations. -/
structure Refines (Step : σ → ι → σ → Prop) (Spec : α → κ → α → Prop) (I : σ → Prop)
    (abs : σ → α) (seen : ι → List ο) (specSeen : κ → List ο) : Prop where
  keeps : ∀ {s i s'}, I s → Step s i s' → I s'
  step : ∀ {s i s'}, I s → Step s i s' →
    ∃ ks, Run Spec (abs s) ks (abs s') ∧ ks.flatMap specSeen = seen i

namespace Refines

variable {Step : σ → ι → σ → Prop} {Spec : α → κ → α → Prop} {I : σ → Prop} {abs : σ → α}
  {seen : ι → List ο} {specSeen : κ → List ο} {s s' : σ} {is : List ι}

/-- So is every run. -/
theorem run (h : Refines Step Spec I abs seen specSeen) (hI : I s) (hr : Run Step s is s') :
    ∃ ks, Run Spec (abs s) ks (abs s') ∧ ks.flatMap specSeen = is.flatMap seen := by
  induction hr with
  | nil s => exact ⟨[], .nil _, rfl⟩
  | cons hstep _ ih =>
      obtain ⟨ks, hks, hseen⟩ := h.step hI hstep
      obtain ⟨ks', hks', hseen'⟩ := ih (h.keeps hI hstep)
      exact ⟨ks ++ ks', hks.append hks', by
        rw [List.flatMap_append, hseen, hseen', List.flatMap_cons]⟩

/-- What the specification shows in no run, the system shows in none. -/
theorem traces (h : Refines Step Spec I abs seen specSeen) (hI : I s) (hr : Run Step s is s')
    {P : List ο → Prop} (hP : ∀ ks a, Run Spec (abs s) ks a → P (ks.flatMap specSeen)) :
    P (is.flatMap seen) := by
  obtain ⟨ks, hks, hseen⟩ := h.run hI hr
  exact hseen ▸ hP ks _ hks

end Refines

end XinuConsole.Lib
