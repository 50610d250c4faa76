import XinuConsole.Lib.CString
import XinuConsole.Lib.Escape

/-!
`lib/connectto.c`: the loop that moves a session's data through a filter.

The loop goes on as long as its `flushdata` returns a positive number. A filter
is a function of the chunk that was read and of its own state; it returns the
number of bytes it took.
-/

namespace XinuConsole.Connectto

open Lib

/-- The code of the stream between the two ends of a session: a backslash is
doubled, and a backslash with a `b` is a break. -/
def streamCode : EscapeCode Byte := ⟨92, 98, by decide⟩

variable {σ : Type}

/-- `flushdata` for what `read` returned: an error, the end of the input or a
chunk. -/
def flushdata (funct : List Byte → σ → ℤ × σ) (got : Option (List Byte)) (s : σ) : ℤ × σ :=
  match got with
  | none => (-1, s)
  | some [] => (0, s)
  | some buf =>
    let (wlen, s) := funct buf s
    if wlen ≠ buf.length then
      if 0 < wlen ∧ wlen < buf.length then (-1, s) else (wlen, s)
    else (1, s)

theorem flushdata_state (funct : List Byte → σ → ℤ × σ) (b : Byte) (buf : List Byte) (s : σ) :
    (flushdata funct (some (b :: buf)) s).2 = (funct (b :: buf) s).2 := by
  simp only [flushdata]
  split
  · split <;> rfl
  · rfl

/-- The session goes on for a filter that takes at least the chunk. -/
theorem flushdata_pos_iff (funct : List Byte → σ → ℤ × σ) (b : Byte) (buf : List Byte) (s : σ) :
    0 < (flushdata funct (some (b :: buf)) s).1 ↔
      ((b :: buf).length : ℤ) ≤ (funct (b :: buf) s).1 := by
  have hpos : (0 : ℤ) < (b :: buf).length := by simp
  simp only [flushdata]
  split
  · split <;> simp only <;> omega
  · simp only
    omega

/-- The loop over chunks in one direction: whether the session goes on, and the
filter's state. -/
def session (funct : List Byte → σ → ℤ × σ) : List (List Byte) → σ → Bool × σ
  | [], s => (true, s)
  | buf :: chunks, s =>
      let (rv, s) := flushdata funct (some buf) s
      if rv ≤ 0 then (false, s) else session funct chunks s

/-- The filter on chunk after chunk: its results and the state after them. -/
def filterChunks (funct : List Byte → σ → ℤ × σ) : List (List Byte) → σ → List ℤ × σ
  | [], s => ([], s)
  | buf :: chunks, s =>
      let r := funct buf s
      let rest := filterChunks funct chunks r.2
      (r.1 :: rest.1, rest.2)

/-- A filter that takes every chunk keeps the session alive. -/
theorem session_of_lengths {funct : List Byte → σ → ℤ × σ} {chunks : List (List Byte)} {s : σ}
    (hne : ∀ buf ∈ chunks, buf ≠ [])
    (hlen : (filterChunks funct chunks s).1 = chunks.map fun buf => (buf.length : ℤ)) :
    session funct chunks s = (true, (filterChunks funct chunks s).2) := by
  induction chunks generalizing s with
  | nil => rfl
  | cons buf chunks ih =>
      obtain ⟨b, buf, rfl⟩ := List.exists_cons_of_ne_nil (hne buf List.mem_cons_self)
      obtain ⟨hrv, hrest⟩ := List.cons.inj hlen
      have hflush : flushdata funct (some (b :: buf)) s = (1, (funct (b :: buf) s).2) := by
        simp only [flushdata]
        rw [if_neg (not_not.mpr hrv)]
      rw [session, hflush, filterChunks]
      exact ih (fun buf hb => hne buf (List.mem_cons_of_mem _ hb)) hrest

end XinuConsole.Connectto
