import Mathlib.Data.List.Basic

/-!
Labelled transition systems and their runs.

`Run Step s is s'` is a finite run from `s` to `s'` with the labels `is`. The
rules here package the inductions over runs: a property kept by every step is
kept by every run (`Run.invariant`), and a property lost along a run is lost at
one of its steps (`Run.exists_step_of_change`).
-/

namespace XinuConsole.Lib

variable {σ ι : Type}

inductive Run (Step : σ → ι → σ → Prop) : σ → List ι → σ → Prop
  | nil (s : σ) : Run Step s [] s
  | cons {s s' s'' : σ} {i : ι} {is : List ι} :
      Step s i s' → Run Step s' is s'' → Run Step s (i :: is) s''

/-- The states that runs from an initial state lead to. -/
def Reachable (Step : σ → ι → σ → Prop) (Init : σ → Prop) (s : σ) : Prop :=
  ∃ s₀ is, Init s₀ ∧ Run Step s₀ is s

/-- Execute a list of actions with an executable step function. -/
def runFn (step : σ → ι → Option σ) : σ → List ι → Option σ
  | s, [] => some s
  | s, i :: is => (step s i).bind fun s' => runFn step s' is

namespace Run

variable {Step : σ → ι → σ → Prop} {s s' s'' : σ} {i : ι} {is js : List ι}

theorem append (h : Run Step s is s') (h' : Run Step s' js s'') : Run Step s (is ++ js) s'' := by
  induction h with
  | nil => exact h'
  | cons hs _ ih => exact .cons hs (ih h')

theorem single (h : Step s i s') : Run Step s [i] s' := .cons h (.nil _)

theorem snoc (h : Run Step s is s') (h' : Step s' i s'') : Run Step s (is ++ [i]) s'' :=
  h.append (single h')

/-- A run over a concatenation passes through a state in the middle. -/
theorem split (h : Run Step s (is ++ js) s'') : ∃ s', Run Step s is s' ∧ Run Step s' js s'' := by
  induction is generalizing s with
  | nil => exact ⟨s, .nil s, h⟩
  | cons i is ih =>
      cases h with
      | cons hs hr =>
          obtain ⟨s', h₁, h₂⟩ := ih hr
          exact ⟨s', .cons hs h₁, h₂⟩

/-- What every step keeps, every run keeps. -/
theorem invariant {I : σ → Prop} (hstep : ∀ s i s', I s → Step s i s' → I s')
    (h : Run Step s is s') (hI : I s) : I s' := by
  induction h with
  | nil => exact hI
  | cons hs _ ih => exact ih (hstep _ _ _ hI hs)

/-- The same for runs whose labels all satisfy `P`, along states of `I`. -/
theorem invariant_of_labels {I J : σ → Prop} {P : ι → Prop}
    (hI : ∀ s i s', I s → Step s i s' → I s')
    (hJ : ∀ s i s', I s → J s → P i → Step s i s' → J s')
    (h : Run Step s is s') (hP : ∀ i ∈ is, P i) (hs : I s) (hs' : J s) : J s' := by
  induction h with
  | nil => exact hs'
  | cons hstep _ ih =>
      exact ih (fun i hi => hP i (List.mem_cons_of_mem _ hi)) (hI _ _ _ hs hstep)
        (hJ _ _ _ hs hs' (hP _ List.mem_cons_self) hstep)

/-- A property of the state and of the labels so far. -/
theorem invariant_past {J : List ι → σ → Prop}
    (hstep : ∀ past s i s', J past s → Step s i s' → J (past ++ [i]) s') (h : Run Step s is s')
    (past : List ι) (hJ : J past s) : J (past ++ is) s' := by
  induction h generalizing past with
  | nil => rwa [List.append_nil]
  | cons hs _ ih =>
      rw [List.append_cons]
      exact ih _ (hstep _ _ _ _ hJ hs)

/-- A run of steps that are steps of another relation. -/
theorem imp_of_labels {Step' : σ → ι → σ → Prop} {P : ι → Prop}
    (hstep : ∀ s i s', P i → Step s i s' → Step' s i s') (h : Run Step s is s')
    (hP : ∀ i ∈ is, P i) : Run Step' s is s' := by
  induction h with
  | nil s => exact .nil s
  | cons hs _ ih =>
      exact .cons (hstep _ _ _ (hP _ List.mem_cons_self) hs)
        (ih fun i hi => hP i (List.mem_cons_of_mem _ hi))

/-- A property that holds at the start of a run and not at its end is lost at
one of the steps. -/
theorem exists_step_of_change {P : σ → Prop} (h : Run Step s is s') (hs : P s) (hs' : ¬P s') :
    ∃ as i bs t t', is = as ++ i :: bs ∧ Run Step s as t ∧ P t ∧ Step t i t' ∧ ¬P t' ∧
      Run Step t' bs s' := by
  induction h with
  | nil => exact absurd hs hs'
  | @cons s t s' i is hstep hr ih =>
      by_cases ht : P t
      · obtain ⟨as, j, bs, u, u', rfl, h₁, h₂, h₃, h₄, h₅⟩ := ih ht hs'
        exact ⟨i :: as, j, bs, u, u', rfl, .cons hstep h₁, h₂, h₃, h₄, h₅⟩
      · exact ⟨[], i, is, s, t, rfl, .nil s, hs, hstep, ht, hr⟩

theorem of_runFn {step : σ → ι → Option σ} (h : runFn step s is = some s') :
    Run (fun s i s' => step s i = some s') s is s' := by
  induction is generalizing s with
  | nil =>
      obtain rfl : s = s' := by simpa [runFn] using h
      exact .nil s
  | cons i is ih =>
      simp only [runFn, Option.bind_eq_some_iff] at h
      obtain ⟨t, ht, hr⟩ := h
      exact .cons ht (ih hr)

/-- The same for a step function with an output, which labels the steps too. -/
theorem of_runFn_fst {ε φ : Type} {step : σ → ε → Option (σ × φ)} {es : List ε}
    (h : runFn (fun s e => (step s e).map Prod.fst) s es = some s') :
    ∃ labels, Run (fun s (l : ε × φ) s' => step s l.1 = some (s', l.2)) s labels s' ∧
      labels.map Prod.fst = es := by
  induction es generalizing s with
  | nil =>
      obtain rfl : s = s' := by simpa [runFn] using h
      exact ⟨[], .nil s, rfl⟩
  | cons e es ih =>
      simp only [runFn, Option.bind_eq_some_iff] at h
      obtain ⟨t, ht, hr⟩ := h
      obtain ⟨⟨t', fx⟩, hstep, rfl⟩ := Option.map_eq_some_iff.mp ht
      obtain ⟨labels, hl, rfl⟩ := ih hr
      exact ⟨(e, fx) :: labels, .cons hstep hl, rfl⟩

end Run

/-- An inductive invariant holds in every reachable state. -/
theorem Reachable.invariant {Step : σ → ι → σ → Prop} {Init I : σ → Prop} {s : σ}
    (hinit : ∀ s, Init s → I s) (hstep : ∀ s i s', I s → Step s i s' → I s')
    (h : Reachable Step Init s) : I s := by
  obtain ⟨s₀, is, h₀, hr⟩ := h
  exact hr.invariant hstep (hinit _ h₀)

end XinuConsole.Lib
