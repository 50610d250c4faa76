import Mathlib.Data.List.Basic

/-!
Programs that interact with their surroundings.

`Prog Op Res α` is a program that issues calls `op : Op`, goes on with whatever
answer of type `Res op` comes back, and ends with a value of type `α`. Nothing
is assumed about the answers: a history is any list of calls with answers, and
`Runs p h a` says that `p` can end with `a` after the history `h`.

`wp` is the weakest precondition for a condition on every call and a condition
on the result, both of which may look at the history so far. An operation with
an empty answer type never returns, so it serves as undefined behaviour.
-/

namespace XinuConsole.Lib

inductive Prog (Op : Type) (Res : Op → Type) (α : Type) : Type
  | ret (a : α) : Prog Op Res α
  | call (op : Op) (k : Res op → Prog Op Res α) : Prog Op Res α

/-- A call together with its answer. -/
structure Answered (Op : Type) (Res : Op → Type) where
  op : Op
  res : Res op

namespace Prog

variable {Op : Type} {Res : Op → Type} {α β : Type}

def bind : Prog Op Res α → (α → Prog Op Res β) → Prog Op Res β
  | .ret a, f => f a
  | .call op k, f => .call op fun r => (k r).bind f

instance : Monad (Prog Op Res) where
  pure := .ret
  bind := .bind

theorem bind_ret (p : Prog Op Res α) : p.bind .ret = p := by
  induction p with
  | ret a => rfl
  | call op k ih => simp only [Prog.bind, ih]

theorem bind_bind {γ : Type} (p : Prog Op Res α) (f : α → Prog Op Res β) (g : β → Prog Op Res γ) :
    (p.bind f).bind g = p.bind fun a => (f a).bind g := by
  induction p with
  | ret a => rfl
  | call op k ih => simp only [Prog.bind, ih]

/-- Issue one call and return its answer. -/
def perform (op : Op) : Prog Op Res (Res op) := .call op .ret

/-- The runs of a program to its end, for every behaviour of the surroundings. -/
inductive Runs : Prog Op Res α → List (Answered Op Res) → α → Prop
  | ret (a : α) : Runs (.ret a) [] a
  | call {op : Op} {k : Res op → Prog Op Res α} (r : Res op) {h : List (Answered Op Res)} {a : α} :
      Runs (k r) h a → Runs (.call op k) (⟨op, r⟩ :: h) a

/-- Weakest precondition: every call satisfies `pre` and the result `post`,
each applied to the history up to that point, which starts as `h`. -/
def wp (pre : List (Answered Op Res) → Op → Prop) :
    Prog Op Res α → (List (Answered Op Res) → α → Prop) → List (Answered Op Res) → Prop
  | .ret a, post, h => post h a
  | .call op k, post, h => pre h op ∧ ∀ r, wp pre (k r) post (h ++ [⟨op, r⟩])

variable {pre : List (Answered Op Res) → Op → Prop} {p : Prog Op Res α}

@[simp] theorem wp_ret (a : α) (post : List (Answered Op Res) → α → Prop)
    (h : List (Answered Op Res)) : wp pre (.ret a) post h ↔ post h a := Iff.rfl

@[simp] theorem wp_pure (a : α) (post : List (Answered Op Res) → α → Prop)
    (h : List (Answered Op Res)) : wp pre (pure a) post h ↔ post h a := Iff.rfl

@[simp] theorem wp_call (op : Op) (k : Res op → Prog Op Res α)
    (post : List (Answered Op Res) → α → Prop) (h : List (Answered Op Res)) :
    wp pre (.call op k) post h ↔ pre h op ∧ ∀ r, wp pre (k r) post (h ++ [⟨op, r⟩]) := Iff.rfl

@[simp] theorem wp_perform (op : Op) (post : List (Answered Op Res) → Res op → Prop)
    (h : List (Answered Op Res)) :
    wp pre (perform op) post h ↔ pre h op ∧ ∀ r, post (h ++ [⟨op, r⟩]) r := Iff.rfl

@[simp] theorem wp_bind (p : Prog Op Res α) (f : α → Prog Op Res β)
    (post : List (Answered Op Res) → β → Prop) (h : List (Answered Op Res)) :
    wp pre (p >>= f) post h ↔ wp pre p (fun h' a => wp pre (f a) post h') h := by
  change wp pre (p.bind f) post h ↔ _
  induction p generalizing h with
  | ret a => rfl
  | call op k ih => simp only [Prog.bind, wp_call, ih]

/-- The postcondition may be weakened, for histories that extend `h`. -/
theorem wp_mono {post post' : List (Answered Op Res) → α → Prop} {h : List (Answered Op Res)}
    (hpost : ∀ h' a, h <+: h' → post h' a → post' h' a) (hp : wp pre p post h) :
    wp pre p post' h := by
  induction p generalizing h with
  | ret a => exact hpost h a List.prefix_rfl hp
  | call op k ih =>
      refine ⟨hp.1, fun r => ih r (fun h' a hh => hpost h' a ?_) (hp.2 r)⟩
      exact (List.prefix_append h _).trans hh

theorem Runs.bind {f : α → Prog Op Res β} {h h' : List (Answered Op Res)} {a : α} {b : β}
    (hp : Runs p h a) (hf : Runs (f a) h' b) : Runs (p >>= f) (h ++ h') b := by
  change Runs (p.bind f) (h ++ h') b
  induction hp with
  | ret a => exact hf
  | call r _ ih => exact .call r (ih hf)

/-- A run that ends satisfies the postcondition. -/
theorem Runs.post {post : List (Answered Op Res) → α → Prop} {h h' : List (Answered Op Res)}
    {a : α} (hr : Runs p h' a) (hp : wp pre p post h) : post (h ++ h') a := by
  induction hr generalizing h with
  | ret a => simpa using hp
  | call r _ ih => simpa using ih (hp.2 r)

/-- Every call of a run was made under its precondition. -/
theorem Runs.called {post : List (Answered Op Res) → α → Prop} {h h' : List (Answered Op Res)}
    {a : α} (hr : Runs p h' a) (hp : wp pre p post h) {as bs : List (Answered Op Res)}
    {call : Answered Op Res} (hh : h' = as ++ call :: bs) : pre (h ++ as) call.op := by
  induction hr generalizing h as with
  | ret a => exact absurd hh (by simp)
  | call r _ ih =>
      cases as with
      | nil =>
          obtain ⟨rfl, -⟩ := List.cons.inj hh
          rw [List.append_nil]
          exact hp.1
      | cons c as =>
          obtain ⟨rfl, htail⟩ := List.cons.inj hh
          simpa using ih (hp.2 r) htail

/-- Run a program in surroundings that answer a call in the same way every
time, or not at all. -/
def exec (answer : (op : Op) → Option (Res op)) :
    Prog Op Res α → Option (List (Answered Op Res) × α)
  | .ret a => some ([], a)
  | .call op k =>
      match answer op with
      | none => none
      | some r => (exec answer (k r)).map fun x => (⟨op, r⟩ :: x.1, x.2)

theorem runs_of_exec {answer : (op : Op) → Option (Res op)} {h : List (Answered Op Res)} {a : α}
    (he : exec answer p = some (h, a)) : Runs p h a := by
  induction p generalizing h with
  | ret b =>
      obtain ⟨rfl, rfl⟩ := Prod.mk.inj (Option.some.inj he)
      exact .ret b
  | call op k ih =>
      simp only [exec] at he
      split at he
      · exact absurd he (by simp)
      · next r hr =>
          obtain ⟨⟨h', b⟩, hrun, hx⟩ := Option.map_eq_some_iff.mp he
          obtain ⟨rfl, rfl⟩ := Prod.mk.inj hx
          exact .call r (ih r hrun)

/-! ### Calls carried out by programs -/

section Interp

variable {Op' : Type} {Res' : Op' → Type} (handler : (op : Op) → Prog Op' Res' (Res op))

/-- Every call is carried out by a program over other calls. -/
def interp : Prog Op Res α → Prog Op' Res' α
  | .ret a => .ret a
  | .call op k => (handler op).bind fun r => interp (k r)

/-- A history of calls and the one of the programs that carry them out. -/
inductive Expands : List (Answered Op Res) → List (Answered Op' Res') → Prop
  | nil : Expands [] []
  | cons {op : Op} {r : Res op} {h : List (Answered Op' Res')} {t : List (Answered Op Res)}
      {w : List (Answered Op' Res')} :
      Runs (handler op) h r → Expands t w → Expands (⟨op, r⟩ :: t) (h ++ w)

/-- A run of two programs in a row ends the first one first. -/
theorem Runs.split {f : α → Prog Op Res β} {h : List (Answered Op Res)} {b : β}
    (hr : Runs (p.bind f) h b) : ∃ h₁ a h₂, h = h₁ ++ h₂ ∧ Runs p h₁ a ∧ Runs (f a) h₂ b := by
  induction p generalizing h with
  | ret a => exact ⟨[], a, h, rfl, .ret a, hr⟩
  | call op k ih =>
      cases hr with
      | call r hr =>
          obtain ⟨h₁, a, h₂, rfl, hk, hf⟩ := ih r hr
          exact ⟨⟨op, r⟩ :: h₁, a, h₂, rfl, .call r hk, hf⟩

variable {handler}

theorem interp_bind (p : Prog Op Res α) (f : α → Prog Op Res β) :
    interp handler (p >>= f) = interp handler p >>= fun a => interp handler (f a) := by
  change interp handler (p.bind f) = (interp handler p).bind fun a => interp handler (f a)
  induction p with
  | ret a => rfl
  | call op k ih =>
      simp only [Prog.bind, interp, ih]
      exact (bind_bind (handler op) _ _).symm

@[simp] theorem interp_pure (a : α) : interp handler (pure a) = pure a := rfl

theorem interp_perform (op : Op) : interp handler (perform op) = handler op :=
  bind_ret (handler op)

/-- What the calls are carried out by shows only in the histories. -/
theorem Runs.of_interp {w : List (Answered Op' Res')} {a : α} (hr : Runs (interp handler p) w a) :
    ∃ h, Runs p h a ∧ Expands handler h w := by
  induction p generalizing w with
  | ret b =>
      cases hr
      exact ⟨[], .ret _, .nil⟩
  | call op k ih =>
      obtain ⟨w₁, r, w₂, rfl, hop, hk⟩ := Runs.split hr
      obtain ⟨h, hrun, hexpands⟩ := ih r hk
      exact ⟨⟨op, r⟩ :: h, .call r hrun, .cons hop hexpands⟩

end Interp

/-! ### The result alone -/

section Value

variable (answer : (op : Op) → Option (Res op))

/-- What a program ends with in surroundings that answer a call in the same way
every time. -/
def value (p : Prog Op Res α) : Option α := (exec answer p).map Prod.snd

@[simp] theorem value_ret (a : α) : value answer (.ret a : Prog Op Res α) = some a := rfl

@[simp] theorem value_pure (a : α) : value answer (pure a : Prog Op Res α) = some a := rfl

@[simp] theorem value_call (op : Op) (k : Res op → Prog Op Res α) :
    value answer (.call op k) = (answer op).bind fun r => value answer (k r) := by
  rw [value, exec]
  cases answer op with
  | none => rfl
  | some r =>
      simp only [Option.map_map]
      rfl

@[simp] theorem value_perform (op : Op) : value answer (perform op) = answer op := by
  rw [perform, value_call]
  cases answer op <;> rfl

@[simp] theorem value_bind (p : Prog Op Res α) (f : α → Prog Op Res β) :
    value answer (p >>= f) = (value answer p).bind fun a => value answer (f a) := by
  change value answer (p.bind f) = _
  induction p with
  | ret a => rfl
  | call op k ih => simp only [Prog.bind, value_call, ih, Option.bind_assoc]

end Value

end Prog

end XinuConsole.Lib
