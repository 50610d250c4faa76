import XinuConsole.Lib.Run

/-!
Noninterference: what is seen of a system at the end of a run depends on the relevant
labels only.
-/

namespace XinuConsole.Lib

variable {σ ι α : Type}

/-- Labels that are not relevant leave the view alone, and relevant ones change equal
views in the same way. -/
structure Unwinds (Step : σ → ι → σ → Prop) (relevant : ι → Bool) (view : σ → α) : Prop where
  frame : ∀ {s i s'}, relevant i = false → Step s i s' → view s' = view s
  same : ∀ {s s' t t' i}, relevant i = true → view s = view t → Step s i s' → Step t i t' →
    view s' = view t'

/-- The steps as they are seen. -/
def ViewStep (Step : σ → ι → σ → Prop) (view : σ → α) (a : α) (i : ι) (b : α) : Prop :=
  ∃ s s', Step s i s' ∧ view s = a ∧ view s' = b

namespace Unwinds

variable {Step : σ → ι → σ → Prop} {relevant : ι → Bool} {view : σ → α} {s s' t t' : σ}
  {is js : List ι}

/-- A run is seen as a run over its relevant labels. -/
theorem seen (h : Unwinds Step relevant view) (hr : Run Step s is s') :
    Run (ViewStep Step view) (view s) (is.filter relevant) (view s') := by
  induction hr with
  | nil s => exact .nil (view s)
  | @cons s t s' i is hstep _ ih =>
      cases hi : relevant i with
      | false =>
          rw [List.filter_cons_of_neg (by simp [hi]), ← h.frame hi hstep]
          exact ih
      | true =>
          rw [List.filter_cons_of_pos hi]
          exact .cons ⟨s, t, hstep, rfl, rfl⟩ ih

theorem seen_unique (h : Unwinds Step relevant view) {a b c : α}
    (his : ∀ i ∈ is, relevant i = true) (hb : Run (ViewStep Step view) a is b)
    (hc : Run (ViewStep Step view) a is c) : b = c := by
  induction hb with
  | nil => cases hc; rfl
  | cons hstep _ ih =>
      cases hc with
      | cons hstep' hrest =>
          obtain ⟨s, s', hs, rfl, rfl⟩ := hstep
          obtain ⟨t, t', ht, hview, rfl⟩ := hstep'
          rw [← h.same (his _ List.mem_cons_self) hview.symm hs ht] at hrest
          exact ih (fun i hi => his i (List.mem_cons_of_mem _ hi)) hrest

theorem run (h : Unwinds Step relevant view) (hr : Run Step s is s') (hr' : Run Step t js t')
    (hview : view s = view t) (hsame : is.filter relevant = js.filter relevant) :
    view s' = view t' := by
  have hs := h.seen hr
  have ht := h.seen hr'
  rw [← hview, ← hsame] at ht
  exact h.seen_unique (fun i hi => (List.mem_filter.mp hi).2) hs ht

end Unwinds

end XinuConsole.Lib
