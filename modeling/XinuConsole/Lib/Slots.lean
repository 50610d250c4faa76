import Mathlib.Data.Nat.Notation
import Mathlib.Logic.Function.Basic

/-!
Arrays of a fixed size whose elements need not be set. A store has a result
inside the array only.
-/

namespace XinuConsole.Lib

/-- An array of `n` elements, `none` where nothing was stored. -/
abbrev Slots (α : Type) (n : ℕ) := Fin n → Option α

namespace Slots

variable {α : Type} {n : ℕ}

/-- An array in which nothing was stored. -/
def fresh (α : Type) (n : ℕ) : Slots α n := fun _ => none

def load (s : Slots α n) (i : ℕ) : Option α := if h : i < n then s ⟨i, h⟩ else none

def store (s : Slots α n) (i : ℕ) (a : α) : Option (Slots α n) :=
  if h : i < n then some (Function.update s ⟨i, h⟩ (some a)) else none

theorem store_eq_none (s : Slots α n) {i : ℕ} (h : n ≤ i) (a : α) : s.store i a = none :=
  dif_neg (by omega)

/-- A store inside the array changes one element. -/
theorem store_of_lt (s : Slots α n) {i : ℕ} (h : i < n) (a : α) :
    ∃ s', s.store i a = some s' ∧ s'.load i = some a ∧ ∀ j, j ≠ i → s'.load j = s.load j := by
  refine ⟨_, dif_pos h, ?_, ?_⟩
  · rw [load, dif_pos h, Function.update_self]
  · intro j hj
    rw [load, load]
    split
    · next hlt =>
        have hne : (⟨j, hlt⟩ : Fin n) ≠ ⟨i, h⟩ := fun heq => hj (congrArg Fin.val heq)
        rw [Function.update_of_ne hne]
    · rfl

end Slots

end XinuConsole.Lib
