import Mathlib.Data.List.Basic

/-!
Machines that read a list and put out another one.

Every input item moves the machine on and yields a few items of output, or
stops it, and the end of the input may yield more. `walk` is the way through a
front part of the input, `output` all that comes out for the whole of it.
-/

namespace XinuConsole.Lib

structure Transducer (σ ι ο : Type) where
  step : σ → ι → Option (σ × List ο)
  finish : σ → Option (List ο)

namespace Transducer

variable {σ ι ο : Type} (m : Transducer σ ι ο)

def walk : σ → List ι → Option (σ × List ο)
  | s, [] => some (s, [])
  | s, i :: is =>
      (m.step s i).bind fun r => (walk r.1 is).map fun r' => (r'.1, r.2 ++ r'.2)

def output : σ → List ι → Option (List ο)
  | s, [] => m.finish s
  | s, i :: is => (m.step s i).bind fun r => (output r.1 is).map (r.2 ++ ·)

@[simp] theorem output_nil (s : σ) : m.output s [] = m.finish s := rfl

variable {m}

theorem output_cons {s s' : σ} {i : ι} {os : List ο} (h : m.step s i = some (s', os))
    (is : List ι) : m.output s (i :: is) = (m.output s' is).map (os ++ ·) := by
  rw [output, h]
  rfl

theorem output_cons_nil {s s' : σ} {i : ι} (h : m.step s i = some (s', [])) (is : List ι) :
    m.output s (i :: is) = m.output s' is := by
  rw [output_cons h]
  exact Option.map_id'

theorem output_stop {s : σ} {i : ι} (h : m.step s i = none) (is : List ι) :
    m.output s (i :: is) = none := by
  rw [output, h]
  rfl

/-- Behind a front part of the input the machine goes on from where that leads. -/
theorem output_append (s : σ) (is js : List ι) :
    m.output s (is ++ js) = (m.walk s is).bind fun r => (m.output r.1 js).map (r.2 ++ ·) := by
  induction is generalizing s with
  | nil => exact Option.map_id'.symm
  | cons i is ih =>
      rw [List.cons_append, output, walk]
      cases m.step s i with
      | none => rfl
      | some r =>
          dsimp only [Option.bind_some]
          rw [ih]
          cases m.walk r.1 is with
          | none => rfl
          | some r' => simp [Function.comp_def]

theorem output_append_of_walk {s s' : σ} {is : List ι} {os : List ο}
    (h : m.walk s is = some (s', os)) (js : List ι) :
    m.output s (is ++ js) = (m.output s' js).map (os ++ ·) := by
  rw [output_append, h]
  rfl

/-- An input that is read to its end is read beyond each front part of it. -/
theorem exists_walk {s : σ} {is js : List ι} {os : List ο} (h : m.output s (is ++ js) = some os) :
    ∃ s' os', m.walk s is = some (s', os') ∧ (m.output s' js).map (os' ++ ·) = some os := by
  rw [output_append] at h
  obtain ⟨⟨s', os'⟩, hwalk, hrest⟩ := Option.bind_eq_some_iff.mp h
  exact ⟨s', os', hwalk, hrest⟩

/-- States that do the same and stay related put out the same. -/
theorem output_eq_of_related {R : σ → σ → Prop}
    (hfinish : ∀ s t, R s t → m.finish s = m.finish t)
    (hstep : ∀ s t i, R s t → (m.step s i = none ∧ m.step t i = none) ∨
      ∃ s' t' os, m.step s i = some (s', os) ∧ m.step t i = some (t', os) ∧ R s' t')
    {s t : σ} (h : R s t) (is : List ι) : m.output s is = m.output t is := by
  induction is generalizing s t with
  | nil => exact hfinish s t h
  | cons i is ih =>
      rcases hstep s t i h with ⟨hs, ht⟩ | ⟨s', t', os, hs, ht, h'⟩
      · rw [output_stop hs, output_stop ht]
      · rw [output_cons hs, output_cons ht, ih h']

/-- What an invariant of the states says of each item that is put out. -/
theorem output_forall {I : σ → Prop} {P : ι → Prop} {Q : ο → Prop}
    (hstep : ∀ s i s' os, I s → P i → m.step s i = some (s', os) → I s' ∧ ∀ o ∈ os, Q o)
    (hfinish : ∀ s os, I s → m.finish s = some os → ∀ o ∈ os, Q o) {s : σ} {is : List ι}
    {os : List ο} (hs : I s) (his : ∀ i ∈ is, P i) (h : m.output s is = some os) :
    ∀ o ∈ os, Q o := by
  induction is generalizing s os with
  | nil => exact hfinish s os hs h
  | cons i is ih =>
      rw [output] at h
      obtain ⟨⟨s', os'⟩, hi, hrest⟩ := Option.bind_eq_some_iff.mp h
      obtain ⟨os'', hos'', rfl⟩ := Option.map_eq_some_iff.mp hrest
      obtain ⟨hs', hos'⟩ := hstep s i s' os' hs (his i List.mem_cons_self) hi
      intro o ho
      rcases List.mem_append.mp ho with ho | ho
      · exact hos' o ho
      · exact ih hs' (fun i hi => his i (List.mem_cons_of_mem _ hi)) hos'' o ho

end Transducer

end XinuConsole.Lib
