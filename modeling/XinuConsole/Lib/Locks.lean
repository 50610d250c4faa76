import Mathlib.Logic.Function.Basic
import XinuConsole.Lib.Run

/-!
Exclusive locks that are held through programs: a lock is given to a user by starting
a program for it, may be renewed, and is free again when its program has ended. To take
a lock from somebody is to kill the program and to wait.
-/

namespace XinuConsole.Lib.Locks

/-- Who holds a lock, by which program, and since when. -/
structure Holder (υ π τ : Type) where
  user : υ
  program : π
  since : τ

/-- The holders of all locks. -/
abbrev Board (κ υ π τ : Type) := κ → Option (Holder υ π τ)

inductive Move (κ υ π τ : Type)
  | grant (lock : κ) (user : υ) (program : π) (now : τ)
  | renew (lock : κ) (user : υ) (now : τ)
  | kill (program : π)
  | ended (program : π)

/-- What is seen of the locks from outside. -/
inductive Seen (κ π : Type)
  | started (program : π) (lock : κ)
  | killed (program : π)
  | ended (program : π)
  deriving DecidableEq

variable {κ υ π τ : Type} [DecidableEq κ] [DecidableEq π]

def Move.seen : Move κ υ π τ → List (Seen κ π)
  | .grant lock _ program _ => [.started program lock]
  | .renew _ _ _ => []
  | .kill program => [.killed program]
  | .ended program => [.ended program]

/-- The board without what a program holds. -/
def Board.without (b : Board κ υ π τ) (program : π) : Board κ υ π τ :=
  fun lock => (b lock).filter fun h => h.program ≠ program

inductive Spec (b : Board κ υ π τ) : Move κ υ π τ → Board κ υ π τ → Prop
  | grant {lock : κ} {user : υ} {program : π} {now : τ} :
      b lock = none → (∀ l h, b l = some h → h.program ≠ program) →
      Spec b (.grant lock user program now) (Function.update b lock (some ⟨user, program, now⟩))
  | renew {lock : κ} {h : Holder υ π τ} {now : τ} :
      b lock = some h →
      Spec b (.renew lock h.user now) (Function.update b lock (some { h with since := now }))
  | kill {lock : κ} {h : Holder υ π τ} : b lock = some h → Spec b (.kill h.program) b
  | ended {program : π} : Spec b (.ended program) (b.without program)

/-- What was seen shows `program` running for `lock`. -/
def Runs (program : π) (lock : κ) (trace : List (Seen κ π)) : Prop :=
  ∃ before since, trace = before ++ .started program lock :: since ∧ .ended program ∉ since

omit [DecidableEq κ] [DecidableEq π] in
theorem Runs.append {program : π} {lock : κ} {trace seen : List (Seen κ π)}
    (h : Runs program lock trace) (hseen : .ended program ∉ seen) :
    Runs program lock (trace ++ seen) := by
  obtain ⟨before, since, rfl, hsince⟩ := h
  refine ⟨before, since ++ seen, by rw [List.append_assoc, List.cons_append], ?_⟩
  exact fun hmem => (List.mem_append.mp hmem).elim hsince hseen

omit [DecidableEq κ] [DecidableEq π] in
/-- What runs after one more observation ran before, or was just started; and it has
not just ended. -/
theorem Runs.of_concat {program : π} {lock : κ} {trace : List (Seen κ π)} {o : Seen κ π}
    (h : Runs program lock (trace ++ [o])) :
    (Runs program lock trace ∨ o = .started program lock) ∧ o ≠ .ended program := by
  obtain ⟨before, since, heq, hsince⟩ := h
  rcases List.eq_nil_or_concat since with rfl | ⟨since', o', rfl⟩
  · obtain ⟨-, ho⟩ := List.append_inj' heq rfl
    obtain rfl := List.singleton_inj.mp ho
    exact ⟨.inr rfl, by simp⟩
  · rw [List.concat_eq_append, ← List.cons_append, ← List.append_assoc] at heq
    obtain ⟨htrace, ho⟩ := List.append_inj' heq rfl
    obtain rfl := List.singleton_inj.mp ho
    rw [List.concat_eq_append] at hsince
    exact ⟨.inl ⟨before, since', htrace, fun hmem => hsince (List.mem_append_left _ hmem)⟩,
      fun heq => hsince (by simp [heq])⟩

/-- The board holds what is seen to run, and nothing else. -/
def Faithful (trace : List (Seen κ π)) (b : Board κ υ π τ) : Prop :=
  ∀ program lock, Runs program lock trace ↔ ∃ h, b lock = some h ∧ h.program = program

omit [DecidableEq κ] in
theorem without_eq_some {b : Board κ υ π τ} {program : π} {lock : κ} {h : Holder υ π τ} :
    b.without program lock = some h ↔ b lock = some h ∧ h.program ≠ program := by
  simp [Board.without, Option.filter_eq_some_iff]

theorem faithful_step {b b' : Board κ υ π τ} {trace : List (Seen κ π)} {move : Move κ υ π τ}
    (h : Faithful trace b) (hs : Spec b move b') : Faithful (trace ++ move.seen) b' := by
  intro p l
  cases hs with
  | @grant lock user program now hfree hfresh =>
      constructor
      · intro hruns
        rcases hruns.of_concat.1 with hold | hnew
        · obtain ⟨holder, hholder, hp⟩ := (h p l).mp hold
          have hne : l ≠ lock := fun heq => by simp [heq, hfree] at hholder
          exact ⟨holder, by rwa [Function.update_of_ne hne], hp⟩
        · obtain ⟨rfl, rfl⟩ := Seen.started.inj hnew
          exact ⟨_, Function.update_self .., rfl⟩
      · rintro ⟨holder, hholder, rfl⟩
        by_cases hl : l = lock
        · subst hl
          rw [Function.update_self] at hholder
          obtain rfl := Option.some.inj hholder
          exact ⟨trace, [], rfl, List.not_mem_nil⟩
        · rw [Function.update_of_ne hl] at hholder
          exact ((h _ _).mpr ⟨holder, hholder, rfl⟩).append (by simp [Move.seen])
  | @renew lock holder now hheld =>
      rw [show trace ++ Move.seen (.renew lock holder.user now) = trace from List.append_nil _, h p l]
      by_cases hl : l = lock
      · subst hl
        simp [hheld]
      · rw [Function.update_of_ne hl]
  | kill hheld =>
      rw [← h p l]
      constructor
      · exact fun hruns => hruns.of_concat.1.resolve_right (by simp)
      · exact fun hruns => hruns.append (by simp [Move.seen])
  | @ended program =>
      constructor
      · intro hruns
        obtain ⟨hor, hne⟩ := hruns.of_concat
        obtain ⟨holder, hholder, rfl⟩ := (h p l).mp (hor.resolve_right (by simp))
        exact ⟨holder, without_eq_some.mpr ⟨hholder, fun heq => hne (by rw [heq])⟩, rfl⟩
      · rintro ⟨holder, hholder, rfl⟩
        obtain ⟨hheld, hne⟩ := without_eq_some.mp hholder
        exact ((h _ _).mpr ⟨holder, hheld, rfl⟩).append (by simpa [Move.seen] using hne)

/-- What may be seen next: a program is started for a lock for which none runs, and
what is killed runs. -/
def Allowed (trace : List (Seen κ π)) : Seen κ π → Prop
  | .started program lock => (∀ p, ¬Runs p lock trace) ∧ ∀ l, ¬Runs program l trace
  | .killed program => ∃ lock, Runs program lock trace
  | .ended _ => True

/-- A trace that an exclusive lock may show. -/
def Orderly (trace : List (Seen κ π)) : Prop :=
  ∀ before o after, trace = before ++ o :: after → Allowed before o

omit [DecidableEq κ] [DecidableEq π] in
theorem Orderly.concat {trace : List (Seen κ π)} {o : Seen κ π} (h : Orderly trace)
    (ho : Allowed trace o) : Orderly (trace ++ [o]) := by
  intro before x after heq
  rcases List.eq_nil_or_concat after with rfl | ⟨after', x', rfl⟩
  · obtain ⟨rfl, hx⟩ := List.append_inj' heq rfl
    obtain rfl := List.singleton_inj.mp hx
    exact ho
  · rw [List.concat_eq_append, ← List.cons_append, ← List.append_assoc] at heq
    exact h before x after' (List.append_inj' heq rfl).1

/-- Every run of the specification is orderly. -/
theorem orderly_run {b : Board κ υ π τ} (hempty : ∀ lock, b lock = none)
    {moves : List (Move κ υ π τ)} {b' : Board κ υ π τ} (hr : Run Spec b moves b') :
    Orderly (moves.flatMap Move.seen) := by
  have hall : Faithful (moves.flatMap Move.seen) b' ∧ Orderly (moves.flatMap Move.seen) := by
    refine hr.invariant_past (J := fun moves b => Faithful (moves.flatMap Move.seen) b ∧
      Orderly (moves.flatMap Move.seen)) ?_ [] ⟨?_, ?_⟩
    · rintro past b move b' ⟨hfaithful, horderly⟩ hs
      rw [List.flatMap_append, List.flatMap_singleton]
      refine ⟨faithful_step hfaithful hs, ?_⟩
      cases hs with
      | grant hfree hfresh =>
          refine horderly.concat ⟨fun p hruns => ?_, fun l hruns => ?_⟩
          · obtain ⟨holder, hholder, -⟩ := (hfaithful p _).mp hruns
            rw [hfree] at hholder
            exact absurd hholder (by simp)
          · obtain ⟨holder, hholder, hp⟩ := (hfaithful _ l).mp hruns
            exact hfresh l holder hholder hp
      | renew => rwa [Move.seen, List.append_nil]
      | @kill lock holder hheld =>
          exact horderly.concat ⟨lock, (hfaithful _ _).mpr ⟨holder, hheld, rfl⟩⟩
      | ended => exact horderly.concat trivial
    · intro program lock
      simp [Runs, hempty]
    · intro before o after heq
      simp at heq
  exact hall.2

end XinuConsole.Lib.Locks
