import Mathlib.Data.Int.Notation
import Mathlib.Data.List.Basic
import Mathlib.Order.Basic

/-!
Descriptor tables. A call that opens something gets the lowest descriptor that is
not open; what refuses is the caller's business and a parameter here.
-/

namespace XinuConsole.Lib

/-- What the descriptors of a process refer to. -/
structure Descriptors (ρ : Type) where
  slots : List (Option ρ)
  deriving DecidableEq

namespace Descriptors

variable {ρ : Type} (t : Descriptors ρ)

def get (fd : ℕ) : Option ρ := t.slots[fd]?.join

def set (fd : ℕ) (r : Option ρ) : Descriptors ρ :=
  ⟨(t.slots ++ List.replicate (fd + 1 - t.slots.length) none).set fd r⟩

def free : ℕ := t.slots.findIdx Option.isNone

/-- A call that opens `r`, or fails. -/
def alloc (ok : Bool) (r : ρ) : ℤ × Descriptors ρ :=
  if ok then (t.free, t.set t.free (some r)) else (-1, t)

def close : ℤ → Descriptors ρ
  | .ofNat fd => t.set fd none
  | .negSucc _ => t

/-- `dup2`; it fails where the first descriptor is not open. -/
def dup2 (fd : ℤ) (new : ℕ) : ℤ × Descriptors ρ :=
  match fd with
  | .ofNat fd => if (t.get fd).isSome then (new, t.set new (t.get fd)) else (-1, t)
  | .negSucc _ => (-1, t)

variable {t}

@[simp] theorem get_set (fd : ℕ) (r : Option ρ) (k : ℕ) :
    (t.set fd r).get k = if k = fd then r else t.get k := by
  have hlen : fd < (t.slots ++ List.replicate (fd + 1 - t.slots.length) none).length := by
    rw [List.length_append, List.length_replicate]
    omega
  have hpad : ((t.slots ++ List.replicate (fd + 1 - t.slots.length) none)[k]?).join = t.get k := by
    rw [get, List.getElem?_append]
    split
    · rfl
    · next hge =>
        rw [List.getElem?_replicate, List.getElem?_eq_none (Nat.le_of_not_lt hge)]
        split <;> rfl
  rw [get, set]
  split
  · next heq =>
      subst heq
      rw [List.getElem?_set_self hlen, Option.join_some]
  · next hne => rw [List.getElem?_set_ne (Ne.symm hne), hpad]

/-! ### The lowest free descriptor -/

theorem get_free : t.get t.free = none := by
  rw [get, free]
  by_cases hlt : t.slots.findIdx Option.isNone < t.slots.length
  · have hnone := List.findIdx_getElem (w := hlt)
    rw [List.getElem?_eq_getElem hlt, Option.join_some]
    exact Option.isNone_iff_eq_none.mp hnone
  · rw [List.getElem?_eq_none (Nat.le_of_not_lt hlt), Option.join_none]

theorem get_of_lt_free {k : ℕ} (h : k < t.free) : t.get k ≠ none := by
  have hnone := List.not_of_lt_findIdx h
  have hlen : k < t.slots.length := Nat.lt_of_lt_of_le h List.findIdx_le_length
  rw [get, List.getElem?_eq_getElem hlen, Option.join_some]
  exact fun heq => by simp [heq] at hnone

theorem free_eq {fd : ℕ} (hfree : t.get fd = none) (hopen : ∀ k < fd, t.get k ≠ none) :
    t.free = fd := by
  rcases Nat.lt_trichotomy t.free fd with hlt | heq | hgt
  · exact absurd get_free (hopen _ hlt)
  · exact heq
  · exact absurd hfree (get_of_lt_free hgt)

theorem free_ne {k : ℕ} (h : t.get k ≠ none) : t.free ≠ k := fun heq => h (heq ▸ get_free)

/-! ### The calls -/

variable {ok : Bool} {r : ρ} {fd : ℤ}

theorem alloc_of_nonneg (h : 0 ≤ (t.alloc ok r).1) :
    t.alloc ok r = ((t.free : ℤ), t.set t.free (some r)) := by
  unfold alloc at h ⊢
  split
  · rfl
  · next hok => simp [if_neg hok] at h

theorem alloc_of_neg (h : (t.alloc ok r).1 < 0) : t.alloc ok r = (-1, t) := by
  unfold alloc at h ⊢
  split
  · next hok =>
      rw [if_pos hok] at h
      exact absurd h (Int.not_lt.mpr (Int.natCast_nonneg _))
  · rfl

@[simp] theorem get_close_natCast (n k : ℕ) :
    (t.close n).get k = if k = n then none else t.get k := get_set n none k

/-- What was opened and is closed again leaves no trace. -/
theorem get_close_alloc (k : ℕ) : ((t.alloc ok r).2.close (t.alloc ok r).1).get k = t.get k := by
  unfold alloc
  split
  · rw [get_close_natCast]
    split
    · next heq => rw [heq, get_free]
    · next hne => rw [get_set, if_neg hne]
  · rfl

theorem dup2_natCast {n : ℕ} (h : t.get n ≠ none) (new : ℕ) :
    t.dup2 n new = ((new : ℤ), t.set new (t.get n)) :=
  if_pos (Option.isSome_iff_ne_none.mpr h)

theorem get_dup2 {n : ℕ} (h : t.get n ≠ none) (new k : ℕ) :
    (t.dup2 n new).2.get k = if k = new then t.get n else t.get k := by
  rw [dup2_natCast h, get_set]

/-! ### What is opened on top of a table -/

/-- The same descriptors refer to the same things. -/
def Agrees (t u : Descriptors ρ) : Prop := ∀ k, t.get k = u.get k

/-- `r` at the lowest descriptor that is free. -/
def push (t : Descriptors ρ) (r : ρ) : Descriptors ρ := t.set t.free (some r)

@[simp] theorem get_push (r : ρ) (k : ℕ) :
    (t.push r).get k = if k = t.free then some r else t.get k := get_set t.free (some r) k

variable {u v : Descriptors ρ}

theorem Agrees.refl (t : Descriptors ρ) : t.Agrees t := fun _ => rfl

theorem Agrees.trans (h : t.Agrees u) (h' : u.Agrees v) : t.Agrees v :=
  fun k => (h k).trans (h' k)

theorem Agrees.free (h : t.Agrees u) : t.free = u.free := by
  refine free_eq ?_ fun k hk => ?_
  · rw [h, get_free]
  · rw [h]
    exact get_of_lt_free hk

theorem Agrees.push (h : t.Agrees u) (r : ρ) : (t.push r).Agrees (u.push r) := by
  intro k
  rw [get_push, get_push, h.free, h]

theorem Agrees.close (h : t.Agrees u) (n : ℕ) : (t.close n).Agrees (u.close n) := by
  intro k
  rw [get_close_natCast, get_close_natCast, h]

/-- Descriptor 0 is taken at the latest by what is opened next. -/
theorem get_push_zero (t : Descriptors ρ) (r : ρ) : (t.push r).get 0 ≠ none := by
  rw [get_push]
  split
  · simp
  · next hne => exact get_of_lt_free (Nat.pos_of_ne_zero (Ne.symm hne))

theorem close_push (t : Descriptors ρ) (r : ρ) : ((t.push r).close t.free).Agrees t := by
  intro k
  rw [get_close_natCast, get_push]
  split
  · next heq => rw [heq, get_free]
  · rfl

/-- What is opened last can be told apart later. -/
theorem set_push (t : Descriptors ρ) (r r' : ρ) :
    ((t.push r).set t.free (some r')).Agrees (t.push r') := by
  intro k
  rw [get_set, get_push, get_push]
  split <;> rfl

/-- Exactly the first `n` descriptors are open. -/
def First (n : ℕ) (t : Descriptors ρ) : Prop := ∀ k, t.get k ≠ none ↔ k < n

theorem First.free {n : ℕ} (h : t.First n) : t.free = n := by
  refine free_eq ?_ fun k hk => (h k).mpr hk
  by_contra hopen
  exact absurd ((h n).mp hopen) (Nat.lt_irrefl n)

theorem First.push {n : ℕ} (h : t.First n) (r : ρ) : (t.push r).First (n + 1) := by
  intro k
  rw [get_push, h.free]
  split
  · next heq => simp [heq]
  · next hne =>
      rw [h k]
      omega

end Descriptors

end XinuConsole.Lib
