import XinuConsole.Lib.Prog
import XinuConsole.Lib.Run

/-!
Programs on a machine: the history of the calls that a program makes is a run of the
machine that answers them.
-/

namespace XinuConsole.Lib.Prog

variable {Op Op' σ α β : Type} {Res : Op → Type} {Res' : Op' → Type}

/-- The program can end with `a`, and leave the machine in `s'`. -/
def On (Step : σ → Answered Op Res → σ → Prop) (s : σ) (p : Prog Op Res α) (a : α) (s' : σ) :
    Prop :=
  ∃ h, Runs p h a ∧ Run Step s h s'

section Rules

variable {Step : σ → Answered Op Res → σ → Prop} {s s' : σ}

@[simp] theorem on_ret {a b : α} : On Step s (.ret b) a s' ↔ a = b ∧ s' = s := by
  constructor
  · rintro ⟨h, hp, hr⟩
    cases hp
    cases hr
    exact ⟨rfl, rfl⟩
  · rintro ⟨rfl, rfl⟩
    exact ⟨[], .ret a, .nil _⟩

@[simp] theorem on_pure {a b : α} : On Step s (pure b) a s' ↔ a = b ∧ s' = s := on_ret

@[simp] theorem on_call {op : Op} {k : Res op → Prog Op Res α} {a : α} :
    On Step s (.call op k) a s' ↔ ∃ r u, Step s ⟨op, r⟩ u ∧ On Step u (k r) a s' := by
  constructor
  · rintro ⟨h, hp, hr⟩
    cases hp with
    | call r hp =>
        cases hr with
        | cons hstep hr => exact ⟨r, _, hstep, _, hp, hr⟩
  · rintro ⟨r, u, hstep, h, hp, hr⟩
    exact ⟨_, .call r hp, .cons hstep hr⟩

@[simp] theorem on_perform {op : Op} {r : Res op} :
    On Step s (perform op) r s' ↔ Step s ⟨op, r⟩ s' := by
  rw [perform, on_call]
  constructor
  · rintro ⟨r', u, hstep, hret⟩
    obtain ⟨rfl, rfl⟩ := on_ret.mp hret
    exact hstep
  · exact fun hstep => ⟨r, s', hstep, on_ret.mpr ⟨rfl, rfl⟩⟩

@[simp] theorem on_bind {p : Prog Op Res α} {f : α → Prog Op Res β} {b : β} :
    On Step s (p >>= f) b s' ↔ ∃ a u, On Step s p a u ∧ On Step u (f a) b s' := by
  constructor
  · rintro ⟨h, hp, hr⟩
    obtain ⟨h₁, a, h₂, rfl, hp, hf⟩ := Runs.split hp
    obtain ⟨u, hr₁, hr₂⟩ := hr.split
    exact ⟨a, u, ⟨h₁, hp, hr₁⟩, h₂, hf, hr₂⟩
  · rintro ⟨a, u, ⟨h₁, hp, hr₁⟩, h₂, hf, hr₂⟩
    exact ⟨h₁ ++ h₂, hp.bind hf, hr₁.append hr₂⟩

theorem on_perform_bind {op : Op} {f : Res op → Prog Op Res β} {b : β} :
    On Step s (perform op >>= f) b s' ↔ ∃ r u, Step s ⟨op, r⟩ u ∧ On Step u (f r) b s' := by
  simp only [on_bind, on_perform]

end Rules

/-! ### Machines on top of each other -/

section Above

variable {handler : (op : Op) → Prog Op' Res' (Res op)} {Step : σ → Answered Op' Res' → σ → Prop}
  {s s' : σ}

/-- The machine for the calls that are carried out by programs on another machine. -/
def Above (handler : (op : Op) → Prog Op' Res' (Res op)) (Step : σ → Answered Op' Res' → σ → Prop)
    (s : σ) (call : Answered Op Res) (s' : σ) : Prop :=
  On Step s (handler call.op) call.res s'

theorem Expands.run {h : List (Answered Op Res)} {w : List (Answered Op' Res')}
    (hx : Expands handler h w) (hr : Run Step s w s') : Run (Above handler Step) s h s' := by
  induction hx generalizing s with
  | nil =>
      cases hr
      exact .nil _
  | @cons op r w h w' hop _ ih =>
      obtain ⟨t, hcall, hrest⟩ := hr.split
      exact .cons ⟨w, hop, hcall⟩ (ih hrest)

/-- A program whose calls are carried out is a program on the machine above. -/
theorem On.above {p : Prog Op Res α} {a : α} (h : On Step s (interp handler p) a s') :
    ∃ w, Runs p w a ∧ Run (Above handler Step) s w s' := by
  obtain ⟨w, hp, hr⟩ := h
  obtain ⟨h, hruns, hexpands⟩ := hp.of_interp
  exact ⟨h, hruns, hexpands.run hr⟩

end Above

end XinuConsole.Lib.Prog
