import Mathlib.Data.List.Basic

/-!
Scanners of rules with the longest match.

At every position the rule that matches most characters is applied, the first
of them where several match as many. A rule may yield a token or nothing. A
character that no rule matches is skipped, as the default rule of a generated
scanner does.
-/

namespace XinuConsole.Lib

variable {α τ : Type}

/-- How many characters a rule matches at the front of the input, and the token
it makes of them. -/
structure Rule (α τ : Type) where
  length : List α → ℕ
  action : List α → Option τ

/-- The rule to apply. -/
def longest (input : List α) : List (Rule α τ) → Option (Rule α τ)
  | [] => none
  | r :: rules =>
      match longest input rules with
      | none => if 0 < r.length input then some r else none
      | some r' =>
          if 0 < r.length input ∧ r'.length input ≤ r.length input then some r else some r'

theorem longest_pos {input : List α} {rules : List (Rule α τ)} {r : Rule α τ}
    (h : longest input rules = some r) : 0 < r.length input := by
  induction rules generalizing r with
  | nil => exact absurd h (by simp [longest])
  | cons r₀ rules ih =>
      unfold longest at h
      split at h
      · split at h
        · next hpos => exact Option.some.inj h ▸ hpos
        · exact absurd h (by simp)
      · next r' hr' =>
        split at h
        · next hpos => exact Option.some.inj h ▸ hpos.1
        · exact Option.some.inj h ▸ ih hr'

theorem longest_mem {input : List α} {rules : List (Rule α τ)} {r : Rule α τ}
    (h : longest input rules = some r) : r ∈ rules := by
  induction rules generalizing r with
  | nil => exact absurd h (by simp [longest])
  | cons r₀ rules ih =>
      unfold longest at h
      split at h
      · split at h
        · exact Option.some.inj h ▸ List.mem_cons_self
        · exact absurd h (by simp)
      · next r' hr' =>
        split at h
        · exact Option.some.inj h ▸ List.mem_cons_self
        · exact Option.some.inj h ▸ List.mem_cons_of_mem _ (ih hr')

/-- A rule that matches is applied if the rules in front of it match less and
the rules behind it match no more. -/
theorem longest_eq (input : List α) (pre : List (Rule α τ)) {r : Rule α τ}
    (post : List (Rule α τ)) (hpos : 0 < r.length input)
    (hpre : ∀ r' ∈ pre, r'.length input < r.length input)
    (hpost : ∀ r' ∈ post, r'.length input ≤ r.length input) :
    longest input (pre ++ r :: post) = some r := by
  induction pre with
  | nil =>
      rw [List.nil_append, longest]
      split
      · rw [if_pos hpos]
      · next r' hr' => rw [if_pos ⟨hpos, hpost r' (longest_mem hr')⟩]
  | cons r₀ pre ih =>
      rw [List.cons_append, longest, ih fun r' hr' => hpre r' (List.mem_cons_of_mem _ hr')]
      dsimp only
      rw [if_neg]
      intro h
      exact absurd h.2 (Nat.not_le_of_lt (hpre r₀ List.mem_cons_self))

/-- The tokens of the whole input. -/
def scan (rules : List (Rule α τ)) (input : List α) : List τ :=
  match input with
  | [] => []
  | c :: cs =>
      match _hr : longest (c :: cs) rules with
      | none => scan rules cs
      | some r =>
          (r.action ((c :: cs).take (r.length (c :: cs)))).toList ++
            scan rules ((c :: cs).drop (r.length (c :: cs)))
termination_by input.length
decreasing_by
  · simp
  · have := longest_pos _hr
    rw [List.length_drop, List.length_cons]
    omega

@[simp] theorem scan_nil (rules : List (Rule α τ)) : scan rules [] = [] := by
  rw [scan]

/-- The rule that is applied makes a token of what it matches, and the scanner
goes on behind it. -/
theorem scan_append {rules : List (Rule α τ)} {r : Rule α τ} {m rest : List α}
    (hne : m ≠ []) (hlen : r.length (m ++ rest) = m.length)
    (h : longest (m ++ rest) rules = some r) :
    scan rules (m ++ rest) = (r.action m).toList ++ scan rules rest := by
  obtain ⟨c, cs, rfl⟩ := List.exists_cons_of_ne_nil hne
  have hsplit : (c :: cs) ++ rest = c :: (cs ++ rest) := rfl
  rw [hsplit] at h hlen ⊢
  rw [scan]
  split
  · next hnone => exact absurd (hnone.symm.trans h) (by simp)
  · next r' hr' =>
    obtain rfl : r' = r := Option.some.inj (hr'.symm.trans h)
    rw [hlen, ← hsplit, List.take_left, List.drop_left]

/-! ### One token at a time -/

/-- The first token of the input and what is left of the input behind it. -/
def next (rules : List (Rule α τ)) (input : List α) : Option (τ × List α) :=
  match input with
  | [] => none
  | c :: cs =>
      match _hr : longest (c :: cs) rules with
      | none => next rules cs
      | some r =>
          match r.action ((c :: cs).take (r.length (c :: cs))) with
          | some t => some (t, (c :: cs).drop (r.length (c :: cs)))
          | none => next rules ((c :: cs).drop (r.length (c :: cs)))
termination_by input.length
decreasing_by
  · simp
  · have := longest_pos _hr
    rw [List.length_drop, List.length_cons]
    omega

@[simp] theorem next_nil (rules : List (Rule α τ)) : next rules [] = none := by
  rw [next]

/-- The tokens of the whole input are those that come one after the other. -/
theorem scan_eq_next (rules : List (Rule α τ)) (input : List α) :
    scan rules input =
      ((next rules input).map fun x => x.1 :: scan rules x.2).getD [] := by
  fun_induction next rules input with
  | case1 => simp
  | case2 c cs hnone ih =>
      rw [scan]
      split
      · exact ih
      · next r hr => exact absurd (hnone.symm.trans hr) (by simp)
  | case3 c cs r hr t hact =>
      rw [scan]
      split
      · next hnone => exact absurd (hnone.symm.trans hr) (by simp)
      · next r' hr' =>
        obtain rfl : r' = r := Option.some.inj (hr'.symm.trans hr)
        rw [hact]
        rfl
  | case4 c cs r hr hact ih =>
      rw [scan]
      split
      · next hnone => exact absurd (hnone.symm.trans hr) (by simp)
      · next r' hr' =>
        obtain rfl : r' = r := Option.some.inj (hr'.symm.trans hr)
        rw [hact]
        exact ih

/-- A rule that is applied to `m` gives the first token, or none yet. -/
theorem next_append {rules : List (Rule α τ)} {r : Rule α τ} {m rest : List α}
    (hne : m ≠ []) (hlen : r.length (m ++ rest) = m.length)
    (h : longest (m ++ rest) rules = some r) :
    next rules (m ++ rest) = ((r.action m).map fun t => (t, rest)).or (next rules rest) := by
  obtain ⟨c, cs, rfl⟩ := List.exists_cons_of_ne_nil hne
  have hsplit : (c :: cs) ++ rest = c :: (cs ++ rest) := rfl
  rw [hsplit] at h hlen ⊢
  rw [next]
  split
  · next hnone => exact absurd (hnone.symm.trans h) (by simp)
  · next r' hr' =>
    obtain rfl : r' = r := Option.some.inj (hr'.symm.trans h)
    rw [hlen, ← hsplit, List.take_left, List.drop_left]
    cases r'.action (c :: cs) <;> rfl

/-! ### Other tokens -/

section Map

variable {τ' : Type} (f : τ → τ')

/-- The rule with another token. -/
def Rule.map (r : Rule α τ) : Rule α τ' := ⟨r.length, fun m => (r.action m).map f⟩

theorem longest_map (input : List α) (rules : List (Rule α τ)) :
    longest input (rules.map (Rule.map f)) = (longest input rules).map (Rule.map f) := by
  induction rules with
  | nil => rfl
  | cons r rules ih =>
      rw [List.map_cons, longest, longest, ih]
      cases longest input rules with
      | none =>
          show (if 0 < r.length input then some (r.map f) else none) = _
          dsimp only
          split <;> rfl
      | some r' =>
          show (if 0 < r.length input ∧ r'.length input ≤ r.length input then some (r.map f)
            else some (r'.map f)) = _
          dsimp only
          split <;> rfl

/-- Rules that match the same leave the same behind. -/
theorem next_map (rules : List (Rule α τ)) (input : List α) :
    next (rules.map (Rule.map f)) input = (next rules input).map (Prod.map f id) := by
  fun_induction next rules input with
  | case1 => simp
  | case2 c cs hnone ih =>
      rw [next]
      split
      · exact ih
      · next r hr =>
        rw [longest_map, hnone] at hr
        exact absurd hr (by simp)
  | case3 c cs r hr t hact =>
      rw [next]
      split
      · next hnone =>
        rw [longest_map, hr] at hnone
        exact absurd hnone (by simp)
      · next r' hr' =>
        rw [longest_map, hr] at hr'
        obtain rfl : r.map f = r' := Option.some.inj hr'
        simp only [Rule.map, hact]
        rfl
  | case4 c cs r hr hact ih =>
      rw [next]
      split
      · next hnone =>
        rw [longest_map, hr] at hnone
        exact absurd hnone (by simp)
      · next r' hr' =>
        rw [longest_map, hr] at hr'
        obtain rfl : r.map f = r' := Option.some.inj hr'
        simp only [Rule.map, hact]
        exact ih

end Map

/-! ### Matching a class of characters -/

/-- Characters of the class, up to one that is not. -/
theorem takeWhile_append_of_stop {p : α → Bool} {as bs : List α} (has : ∀ a ∈ as, p a = true)
    (hbs : ∀ b ∈ bs.head?, p b = false) : (as ++ bs).takeWhile p = as := by
  rw [List.takeWhile_append_of_pos has]
  cases bs with
  | nil => simp
  | cons b bs => simp [hbs b rfl]

theorem head?_dropWhile_isFalse (p : α → Bool) (as : List α) :
    ∀ a ∈ (as.dropWhile p).head?, p a = false := by
  intro a ha
  have := List.head?_dropWhile_not p as
  rwa [Option.mem_def.mp ha] at this

/-- A larger class matches more. -/
theorem length_takeWhile_le {p q : α → Bool} (h : ∀ a, p a = true → q a = true) (as : List α) :
    (as.takeWhile p).length ≤ (as.takeWhile q).length := by
  induction as with
  | nil => exact Nat.le_refl _
  | cons a as ih =>
      cases hp : p a with
      | false => simp [hp]
      | true => simpa [hp, h a hp] using ih

end XinuConsole.Lib
