import Mathlib.Data.List.TakeWhile

/-!
The words of a list: its maximal runs without a separator.
-/

namespace XinuConsole.Lib

variable {α : Type} [DecidableEq α]

/-- The non-empty pieces between the separators. -/
def words (sep : α) (s : List α) : List (List α) := (s.splitOn sep).filter (· ≠ [])

variable {sep : α}

@[simp] theorem words_nil : words sep [] = [] := by
  simp [words]

theorem words_sep_cons (s : List α) : words sep (sep :: s) = words sep s := by
  have hsplit := List.splitOn_append_cons_self (a := sep) [] s
  rw [List.nil_append] at hsplit
  simp [words, hsplit]

theorem words_append_sep {w : List α} (hne : w ≠ []) (h : sep ∉ w) (s : List α) :
    words sep (w ++ sep :: s) = w :: words sep s := by
  rw [words, List.splitOn_append_cons_self, List.splitOn_eq_singleton h, List.singleton_append,
    List.filter_cons_of_pos (by simpa using hne), words]

theorem words_of_not_mem {w : List α} (hne : w ≠ []) (h : sep ∉ w) : words sep w = [w] := by
  rw [words, List.splitOn_eq_singleton h]
  exact List.filter_cons_of_pos (by simpa using hne)

/-- Separators in front do not count. -/
theorem words_dropWhile (s : List α) : words sep (s.dropWhile (· = sep)) = words sep s := by
  induction s with
  | nil => rfl
  | cons a s ih =>
      by_cases ha : a = sep
      · subst ha
        rw [List.dropWhile_cons_of_pos (by simp), ih, words_sep_cons]
      · rw [List.dropWhile_cons_of_neg (by simpa using ha)]

/-- A list that does not start with a separator is a word, or a word, a
separator and the rest. -/
theorem words_cases {s : List α} (hne : s ≠ []) (hhead : s.head? ≠ some sep) :
    (sep ∉ s ∧ words sep s = [s]) ∨
      ∃ w rest, s = w ++ sep :: rest ∧ w ≠ [] ∧ sep ∉ w ∧ words sep s = w :: words sep rest := by
  by_cases hmem : sep ∈ s
  · obtain ⟨w, rest, rfl, hw⟩ := List.eq_append_cons_of_mem hmem
    have hwne : w ≠ [] := by
      rintro rfl
      exact hhead rfl
    exact .inr ⟨w, rest, rfl, hwne, hw, words_append_sep hwne hw rest⟩
  · exact .inl ⟨hmem, words_of_not_mem hne hmem⟩

theorem head?_dropWhile_sep (s : List α) : (s.dropWhile (· = sep)).head? ≠ some sep := by
  induction s with
  | nil => simp
  | cons a s ih =>
      by_cases ha : a = sep
      · rwa [List.dropWhile_cons_of_pos (by simpa using ha)]
      · rw [List.dropWhile_cons_of_neg (by simpa using ha)]
        simpa using ha

/-- A word is a run of the list that is not empty and has no separator in it. -/
theorem mem_words {s w : List α} (h : w ∈ words sep s) : w ≠ [] ∧ sep ∉ w ∧ w <:+: s := by
  induction hn : s.length using Nat.strong_induction_on generalizing s with
  | _ n ih =>
      have hsuffix := List.dropWhile_suffix (l := s) (· = sep)
      have hlen := hsuffix.length_le
      rw [← words_dropWhile] at h
      by_cases hne : s.dropWhile (· = sep) = []
      · rw [hne, words_nil] at h
        exact absurd h List.not_mem_nil
      rcases words_cases hne (head?_dropWhile_sep s) with ⟨hsep, hwords⟩ |
        ⟨w', rest, hs, hw', hsep, hwords⟩
      · rw [hwords, List.mem_singleton] at h
        subst h
        exact ⟨hne, hsep, hsuffix.isInfix⟩
      · have hlt := congrArg List.length hs
        rw [List.length_append, List.length_cons] at hlt
        have hinfix : w' ++ sep :: rest <:+: s := hs ▸ hsuffix.isInfix
        rw [hwords, List.mem_cons] at h
        rcases h with rfl | hrest
        · exact ⟨hw', hsep, (List.prefix_append w _).isInfix.trans hinfix⟩
        · obtain ⟨hw, hsepw, hrun⟩ := ih rest.length (by omega) hrest rfl
          have htail : rest <:+: w' ++ sep :: rest := ⟨w' ++ [sep], [], by simp⟩
          exact ⟨hw, hsepw, hrun.trans (htail.trans hinfix)⟩

end XinuConsole.Lib
