import XinuConsole.Lib.CString
import XinuConsole.Lib.Lexer

/-!
`src/scanner.l`: the tokens of a configuration file.

Four rules with the longest match: a blank (a backslash in front of a newline is
one too), a comment to the end of the line, a newline, and a word of any other
characters.
-/

namespace XinuConsole.Config

open Lib

/-- A string of C: its characters, without the terminator. -/
abbrev Str := {s : List Byte // (0 : Byte) ∉ s}

/-- `TKNEWLINE`, and `TKSTRING` with its value. The end of the tokens is `TKEOF`. -/
inductive Token
  | newline
  | string (sb : Str)
  deriving DecidableEq

/-- `newsb`: a copy of the text as a string, cut at its first NUL. -/
def newsb (sb : List Byte) : Str := ⟨cstr sb, zero_not_mem_cstr sb⟩

/-- The characters `C` of a word. -/
def isC (b : Byte) : Bool := b ≠ 10 && b ≠ 9 && b ≠ 32

def blankRule : Rule Byte Token where
  length input :=
    if input.head? = some 9 ∨ input.head? = some 32 then 1
    else if input.take 2 = [92, 10] then 2
    else 0
  action _ := none

def commentRule : Rule Byte Token where
  length input :=
    if input.head? = some 35 then 1 + (input.tail.takeWhile (· ≠ 10)).length else 0
  action _ := none

def newlineRule : Rule Byte Token where
  length input := if input.head? = some 10 then 1 else 0
  action _ := some .newline

def wordRule : Rule Byte Token where
  length input := (input.takeWhile isC).length
  action yytext := some (.string (newsb yytext))

/-- The tokens that the calls of `yylex` return one after the other. -/
def yylex (file : List Byte) : List Token :=
  scan [blankRule, commentRule, newlineRule, wordRule] file

/-! ### What the rules match -/

/-- A string that the scanner takes for one word: it is not empty, has no blank
and no newline in it, does not begin a comment and is not the backslash of a
continued line. -/
structure Word (w : Str) : Prop where
  ne_nil : w.val ≠ []
  isC : ∀ b ∈ w.val, isC b = true
  head_ne : w.val.head? ≠ some 35
  ne_backslash : w.val ≠ [92]

theorem word_iff (w : Str) : Word w ↔
    w.val ≠ [] ∧ w.val.all Config.isC = true ∧ w.val.head? ≠ some 35 ∧ w.val ≠ [92] := by
  rw [List.all_eq_true]
  exact ⟨fun h => ⟨h.ne_nil, h.isC, h.head_ne, h.ne_backslash⟩,
    fun ⟨hne, hall, hhead, hback⟩ => ⟨hne, hall, hhead, hback⟩⟩

instance (w : Str) : Decidable (Word w) := decidable_of_iff' _ (word_iff w)

/-- What is matched at the front of a text, in front of the rest of it, and the
token that is made of it. A match of the word rule may have a NUL in it, and a
single backslash is one if no newline follows. -/
inductive Lexeme : List Byte → List Byte → Option Token → Prop
  | blank {b : Byte} (hb : b = 9 ∨ b = 32) (rest : List Byte) : Lexeme [b] rest none
  | continued (rest : List Byte) : Lexeme [92, 10] rest none
  | comment {t rest : List Byte} (ht : (10 : Byte) ∉ t) (hrest : ∀ b ∈ rest.head?, b = 10) :
      Lexeme (35 :: t) rest none
  | newline (rest : List Byte) : Lexeme [10] rest (some .newline)
  | text {t rest : List Byte} (hne : t ≠ []) (ht : ∀ b ∈ t, isC b = true)
      (hhead : t.head? ≠ some 35) (hback : t = [92] → rest.head? ≠ some 10)
      (hrest : ∀ b ∈ rest.head?, isC b = false) : Lexeme t rest (some (.string (newsb t)))

/-- The rules of `scanner.l`. -/
abbrev yyrules : List (Rule Byte Token) := [blankRule, commentRule, newlineRule, wordRule]

/-- The rule `r` is applied to `m` and makes the token. -/
def Applied (m rest : List Byte) (tk : Option Token) (r : Rule Byte Token) : Prop :=
  r.length (m ++ rest) = m.length ∧ longest (m ++ rest) yyrules = some r ∧ r.action m = tk

theorem applied_blank {b : Byte} (hb : b = 9 ∨ b = 32) (rest : List Byte) :
    Applied [b] rest none blankRule := by
  have hlen : blankRule.length (b :: rest) = 1 := by
    rcases hb with rfl | rfl <;> rfl
  have hword : wordRule.length (b :: rest) = 0 := by
    rcases hb with rfl | rfl <;> rfl
  have hne : b ≠ 35 ∧ b ≠ 10 := by
    rcases hb with rfl | rfl <;> decide
  refine ⟨hlen, ?_, rfl⟩
  apply longest_eq (b :: rest) []
  · exact hlen ▸ Nat.one_pos
  · simp
  · rw [hlen]
    simp [commentRule, newlineRule, hne, hword]

theorem applied_continued (rest : List Byte) : Applied [92, 10] rest none blankRule := by
  have hlen : blankRule.length (92 :: 10 :: rest) = 2 := rfl
  have hword : wordRule.length (92 :: 10 :: rest) = 1 := rfl
  refine ⟨hlen, ?_, rfl⟩
  apply longest_eq (92 :: 10 :: rest) []
  · exact hlen ▸ Nat.two_pos
  · simp
  · rw [hlen]
    simp [commentRule, newlineRule, hword]

theorem applied_newline (rest : List Byte) : Applied [10] rest (some .newline) newlineRule := by
  have hlen : newlineRule.length (10 :: rest) = 1 := rfl
  have hword : wordRule.length (10 :: rest) = 0 := rfl
  refine ⟨hlen, ?_, rfl⟩
  apply longest_eq (10 :: rest) [blankRule, commentRule]
  · exact hlen ▸ Nat.one_pos
  · rw [hlen]
    simp [blankRule, commentRule]
  · simp [hword]

theorem applied_comment {t rest : List Byte} (ht : (10 : Byte) ∉ t)
    (hrest : ∀ b ∈ rest.head?, b = 10) : Applied (35 :: t) rest none commentRule := by
  have htake : (t ++ rest).takeWhile (fun b => decide (b ≠ 10)) = t := by
    apply takeWhile_append_of_stop
    · intro b hb
      exact decide_eq_true fun h => ht (h ▸ hb)
    · intro b hb
      exact decide_eq_false (not_not.mpr (hrest b hb))
  have hlen : commentRule.length (35 :: (t ++ rest)) = t.length + 1 := by
    show (if some 35 = some 35 then 1 + ((t ++ rest).takeWhile _).length else 0) = _
    rw [htake, if_pos rfl, Nat.add_comm]
  -- the word rule stops at the end of the line or earlier, and comes later
  have hword : wordRule.length (35 :: (t ++ rest)) ≤ t.length + 1 := by
    have hle := length_takeWhile_le (p := isC) (q := fun b => decide (b ≠ 10))
      (fun b hb => by simp [isC] at hb; simp [hb]) (t ++ rest)
    rw [htake] at hle
    exact Nat.succ_le_succ hle
  refine ⟨hlen, ?_, rfl⟩
  apply longest_eq (35 :: (t ++ rest)) [blankRule]
  · exact hlen ▸ Nat.succ_pos _
  · rw [hlen]
    simp [blankRule]
  · rw [hlen]
    simp [newlineRule, hword]

theorem applied_text {t rest : List Byte} (hne : t ≠ []) (ht : ∀ b ∈ t, isC b = true)
    (hhead : t.head? ≠ some 35) (hback : t = [92] → rest.head? ≠ some 10)
    (hrest : ∀ b ∈ rest.head?, isC b = false) :
    Applied t rest (some (.string (newsb t))) wordRule := by
  have hlen : wordRule.length (t ++ rest) = t.length := by
    show ((t ++ rest).takeWhile isC).length = _
    rw [takeWhile_append_of_stop ht hrest]
  obtain ⟨b, bs, rfl⟩ := List.exists_cons_of_ne_nil hne
  have hb : b ≠ 10 ∧ b ≠ 9 ∧ b ≠ 32 := by
    have := ht b List.mem_cons_self
    simpa [isC, and_assoc] using this
  have hhash : b ≠ 35 := by simpa using hhead
  have hblank : blankRule.length (b :: bs ++ rest) = 0 := by
    have hcont : (b :: bs ++ rest).take 2 ≠ [92, 10] := by
      intro h
      cases bs with
      | nil =>
          -- a single backslash
          obtain rfl : b = 92 := (List.cons.inj h).1
          cases rest with
          | nil => exact absurd h (by simp)
          | cons c rest =>
              obtain rfl : c = 10 := by simpa using (List.cons.inj h).2
              exact hback rfl rfl
      | cons b' bs =>
          have hb' := ht b' (by simp)
          obtain rfl : b' = 10 := by simpa using (List.cons.inj h).2
          exact absurd hb' (by decide)
    simp only [blankRule, List.cons_append, List.head?_cons, Option.some.injEq, hb, or_self,
      if_false] at hcont ⊢
    rw [if_neg hcont]
  have hothers : commentRule.length (b :: bs ++ rest) = 0 ∧
      newlineRule.length (b :: bs ++ rest) = 0 := by
    simp [commentRule, newlineRule, hb, hhash]
  have hpos : 0 < wordRule.length (b :: bs ++ rest) := by
    rw [hlen]
    exact Nat.succ_pos _
  refine ⟨hlen, ?_, rfl⟩
  apply longest_eq (b :: bs ++ rest) [blankRule, commentRule, newlineRule] []
  · exact hpos
  · intro r hr
    simp only [List.mem_cons, List.not_mem_nil, or_false] at hr
    rcases hr with rfl | rfl | rfl
    · rwa [hblank]
    · rwa [hothers.1]
    · rwa [hothers.2]
  · simp

theorem isC_blank {b : Byte} (hb : b = 9 ∨ b = 32) : isC b = false := by
  rcases hb with rfl | rfl <;> rfl

namespace Lexeme

variable {m rest : List Byte} {tk : Option Token}

theorem ne_nil (h : Lexeme m rest tk) : m ≠ [] := by
  cases h with
  | text hne => exact hne
  | _ => simp

theorem applied (h : Lexeme m rest tk) : ∃ r, Applied m rest tk r := by
  cases h with
  | blank hb => exact ⟨_, applied_blank hb _⟩
  | continued => exact ⟨_, applied_continued _⟩
  | comment ht hrest => exact ⟨_, applied_comment ht hrest⟩
  | newline => exact ⟨_, applied_newline _⟩
  | text hne ht hhead hback hrest => exact ⟨_, applied_text hne ht hhead hback hrest⟩

theorem yylex (h : Lexeme m rest tk) : yylex (m ++ rest) = tk.toList ++ Config.yylex rest := by
  obtain ⟨r, hlen, hlongest, hact⟩ := h.applied
  rw [Config.yylex, scan_append h.ne_nil hlen hlongest, hact]
  rfl

/-- Only the first character behind a match counts. -/
theorem congr (h : Lexeme m rest tk) {rest' : List Byte}
    (hhead : ∀ b ∈ rest'.head?, rest.head? = some b) : Lexeme m rest' tk := by
  cases h with
  | blank hb => exact .blank hb _
  | continued => exact .continued _
  | comment ht hrest => exact .comment ht fun b hb => hrest b (hhead b hb)
  | newline => exact .newline _
  | text hne ht hfirst hback hrest =>
      exact .text hne ht hfirst (fun ht h => hback ht (hhead 10 h)) fun b hb => hrest b (hhead b hb)

/-- No word goes over the end of a match. -/
theorem edge (h : Lexeme m rest tk) :
    (∀ b ∈ m.getLast?, isC b = false) ∨ ∀ b ∈ rest.head?, isC b = false := by
  cases h with
  | blank hb =>
      left
      intro c hc
      obtain rfl : _ = c := Option.some.inj hc
      exact isC_blank hb
  | continued =>
      left
      intro c hc
      obtain rfl : 10 = c := Option.some.inj hc
      rfl
  | comment ht hrest =>
      right
      intro c hc
      rw [hrest c hc]
      rfl
  | newline =>
      left
      intro c hc
      obtain rfl : 10 = c := Option.some.inj hc
      rfl
  | text _ _ _ _ hrest => exact .inr hrest

end Lexeme

/-- Something is matched at the front of every text. -/
theorem exists_lexeme {input : List Byte} (h : input ≠ []) :
    ∃ m rest tk, input = m ++ rest ∧ Lexeme m rest tk := by
  obtain ⟨b, bs, rfl⟩ := List.exists_cons_of_ne_nil h
  by_cases hb : b = 9 ∨ b = 32
  · exact ⟨[b], bs, none, rfl, .blank hb bs⟩
  by_cases hnewline : b = 10
  · subst hnewline
    exact ⟨[10], bs, _, rfl, .newline bs⟩
  by_cases hcont : (b :: bs).take 2 = [92, 10]
  · refine ⟨[92, 10], (b :: bs).drop 2, none, ?_, .continued _⟩
    rw [← hcont, List.take_append_drop]
  by_cases hcomment : b = 35
  · subst hcomment
    have hstop := head?_dropWhile_isFalse (fun b : Byte => decide (b ≠ 10)) bs
    have hten : (10 : Byte) ∉ bs.takeWhile fun b => decide (b ≠ 10) := fun h =>
      absurd (List.mem_takeWhile_imp h) (by simp)
    refine ⟨35 :: bs.takeWhile fun b => decide (b ≠ 10), bs.dropWhile fun b => decide (b ≠ 10),
      none, ?_, .comment hten fun c hc => by simpa using hstop c hc⟩
    rw [List.cons_append, List.takeWhile_append_dropWhile]
  · have hisC : isC b = true := by
      simp only [not_or] at hb
      simp [isC, hnewline, hb]
    have hword : (b :: bs).takeWhile isC = b :: bs.takeWhile isC := by
      rw [List.takeWhile_cons, hisC]
      rfl
    have htext := List.takeWhile_append_dropWhile (p := isC) (l := b :: bs)
    refine ⟨(b :: bs).takeWhile isC, (b :: bs).dropWhile isC, _, htext.symm,
      .text ?_ (fun c hc => List.mem_takeWhile_imp hc) ?_ ?_ (head?_dropWhile_isFalse isC _)⟩
    · rw [hword]
      simp
    · rw [hword]
      simpa using hcomment
    · intro hback hten
      obtain ⟨cs, hcs⟩ := List.head?_eq_some_iff.mp hten
      rw [hback, hcs] at htext
      exact hcont (by rw [← htext]; rfl)

theorem yylex_blank {b : Byte} (hb : b = 9 ∨ b = 32) (rest : List Byte) :
    yylex (b :: rest) = yylex rest := (Lexeme.blank hb rest).yylex

theorem yylex_continuation (rest : List Byte) : yylex (92 :: 10 :: rest) = yylex rest :=
  (Lexeme.continued rest).yylex

theorem yylex_newline (rest : List Byte) : yylex (10 :: rest) = .newline :: yylex rest :=
  (Lexeme.newline rest).yylex

/-- A comment reaches to the end of its line. -/
theorem yylex_comment {t rest : List Byte} (ht : (10 : Byte) ∉ t)
    (hrest : ∀ b ∈ rest.head?, b = 10) : yylex (35 :: (t ++ rest)) = yylex rest :=
  (Lexeme.comment ht hrest).yylex

/-- A text ends in front of a blank, a newline or the end of the file. It may
have a NUL in it, and a single backslash is one if no newline follows. -/
theorem yylex_text {t rest : List Byte} (hne : t ≠ []) (ht : ∀ b ∈ t, isC b = true)
    (hhead : t.head? ≠ some 35) (hback : t = [92] → rest.head? ≠ some 10)
    (hrest : ∀ b ∈ rest.head?, isC b = false) :
    yylex (t ++ rest) = .string (newsb t) :: yylex rest :=
  (Lexeme.text hne ht hhead hback hrest).yylex

/-- So does a word. -/
theorem yylex_word {w : Str} (hw : Word w) {rest : List Byte}
    (hrest : ∀ b ∈ rest.head?, isC b = false) :
    yylex (w.val ++ rest) = .string w :: yylex rest := by
  have hnewsb : newsb w.val = w := Subtype.ext (cstr_of_not_mem w.property)
  rw [yylex_text hw.ne_nil hw.isC hw.head_ne (fun h => absurd h hw.ne_backslash) hrest, hnewsb]

end XinuConsole.Config
