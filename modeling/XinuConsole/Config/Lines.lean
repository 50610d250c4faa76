import XinuConsole.Config.Reader

/-!
`tkline`: the line numbers of the scanner.

`linecnt` is counted up by the newline rule. The blank rule takes a newline too,
the one of a continued line, and does not count it.
-/

namespace XinuConsole.Config

open Lib

/-- The rules of `scanner.l` with what their actions do to `linecnt`. -/
def countingRules : List (Rule Byte (ℕ → Token × ℕ)) :=
  [⟨blankRule.length, fun _ => none⟩,
   ⟨commentRule.length, fun _ => none⟩,
   ⟨newlineRule.length, fun _ => some fun linecnt => (.newline, linecnt + 1)⟩,
   ⟨wordRule.length, fun yytext => some fun linecnt => (.string (newsb yytext), linecnt)⟩]

/-- The variables of the scanner: the characters of `yyin` that are not matched
yet, and the two counters of `scanner.l`. -/
structure Scanner where
  yyin : List Byte
  linecnt : ℕ
  eof : Bool

namespace Scanner

/-- One call of `yylex`; no token is `TKEOF`. -/
def yylex (s : Scanner) : Option Token × Scanner :=
  match next countingRules s.yyin with
  | none => (none, { s with yyin := [] })
  | some (action, rest) =>
      let (tk, linecnt) := action s.linecnt
      (some tk, { s with yyin := rest, linecnt := linecnt })

def tkline (s : Scanner) : ℕ := s.linecnt

def tknext (s : Scanner) : Option Token × Scanner :=
  if s.eof then (none, s)
  else
    match s.yylex with
    | (none, s) => (none, { s with eof := true })
    | (some tk, s) => (some tk, s)

/-- The scanner after some calls of `tknext`. -/
def after (file : List Byte) (calls : ℕ) : Scanner :=
  (fun s => s.tknext.2)^[calls] ⟨file, 1, false⟩

/-- What has been matched of the file. -/
def consumed (file : List Byte) (s : Scanner) : List Byte :=
  file.take (file.length - s.yyin.length)

end Scanner

/-! ### Lines of a text -/

/-- The lines of a text that are ended by a newline, and what is behind them. -/
def lines (t : List Byte) : List (List Byte) × List Byte :=
  t.foldl (fun s b => if b = 10 then (s.1 ++ [s.2], []) else (s.1, s.2 ++ [b])) ([], [])

/-- What follows does not stand directly behind a character of a word. -/
def Edge (front : List Byte) : Prop := ∀ b ∈ front.getLast?, isC b = false

/-- A comment begins in the line. -/
def Commented (t : List Byte) : Prop :=
  ∃ i < t.length, t[i]? = some 35 ∧ Edge (t.take i)

/-- The line ends with a backslash that is no part of a word or a comment, so
that its newline is white space. -/
def Continued (line : List Byte) : Prop :=
  line.getLast? = some 92 ∧ Edge line.dropLast ∧ ¬Commented line

instance : DecidablePred Edge := fun front => Option.decidableForallMem front.getLast?

instance : DecidablePred Commented := fun t =>
  inferInstanceAs (Decidable (∃ i < t.length, t[i]? = some 35 ∧ Edge (t.take i)))

instance : DecidablePred Continued := fun line =>
  inferInstanceAs (Decidable (line.getLast? = some 92 ∧ Edge line.dropLast ∧ ¬Commented line))

theorem lines_append {m : List Byte} (hm : (10 : Byte) ∉ m) (t : List Byte) :
    lines (t ++ m) = ((lines t).1, (lines t).2 ++ m) := by
  induction m using List.reverseRecOn with
  | nil => simp
  | append_singleton m b ih =>
      simp only [List.mem_append, List.mem_singleton, not_or] at hm
      rw [← List.append_assoc, lines, List.foldl_append]
      show (if b = 10 then _ else _) = _
      rw [if_neg (Ne.symm hm.2), ← lines, ih hm.1, List.append_assoc]

theorem lines_newline (t : List Byte) : lines (t ++ [10]) = ((lines t).1 ++ [(lines t).2], []) := by
  rw [lines, List.foldl_append]
  rfl

theorem lines_length (t : List Byte) : (lines t).1.length = t.count 10 := by
  induction t using List.reverseRecOn with
  | nil => rfl
  | append_singleton t b ih =>
      by_cases hb : b = 10
      · subst hb
        rw [lines_newline, List.length_append, ih, List.count_append]
        rfl
      · rw [lines_append (by simpa using Ne.symm hb), List.count_append, ih]
        simp [hb]

theorem commented_append (p m : List Byte) : Commented (p ++ m) ↔
    Commented p ∨ ∃ i < m.length, m[i]? = some 35 ∧ Edge (p ++ m.take i) := by
  constructor
  · rintro ⟨i, hi, hhash, hedge⟩
    rcases Nat.lt_or_ge i p.length with hlt | hge
    · left
      rw [List.getElem?_append_left hlt] at hhash
      rw [List.take_append_of_le_length hlt.le] at hedge
      exact ⟨i, hlt, hhash, hedge⟩
    · right
      rw [List.getElem?_append_right hge] at hhash
      rw [List.take_append, List.take_of_length_le hge] at hedge
      rw [List.length_append] at hi
      exact ⟨i - p.length, by omega, hhash, hedge⟩
  · rintro (⟨i, hi, hhash, hedge⟩ | ⟨i, hi, hhash, hedge⟩)
    · refine ⟨i, by rw [List.length_append]; omega, ?_, ?_⟩
      · rwa [List.getElem?_append_left hi]
      · rwa [List.take_append_of_le_length hi.le]
    · refine ⟨p.length + i, by rw [List.length_append]; omega, ?_, ?_⟩
      · rwa [List.getElem?_append_right (Nat.le_add_right _ _), Nat.add_sub_cancel_left]
      · rwa [List.take_append, List.take_of_length_le (Nat.le_add_right _ _), Nat.add_sub_cancel_left]

theorem edge_snoc_of_isC {front : List Byte} {b : Byte} (hb : isC b = true) :
    ¬Edge (front ++ [b]) := fun h => by
  have := h b (by simp)
  rw [hb] at this
  exact absurd this (by decide)

/-- A character that is not a hash begins no comment. -/
theorem commented_snoc {p : List Byte} {b : Byte} (hb : b ≠ 35) :
    Commented (p ++ [b]) ↔ Commented p := by
  rw [commented_append]
  refine or_iff_left ?_
  rintro ⟨i, hi, hhash, -⟩
  obtain rfl : i = 0 := by simpa using hi
  exact hb (Option.some.inj hhash)

/-! ### One match -/

/-- What the scanner knows of the line it is in: a comment is matched to its
end, so is a word, and a newline behind a continued line was not left over. -/
structure Current (p rest : List Byte) : Prop where
  comment : Commented p → ∀ b ∈ rest.head?, b = 10
  word : ¬Commented p → Edge p ∨ ∀ b ∈ rest.head?, isC b = false
  backslash : Continued p → rest.head? ≠ some 10

theorem Current.start (rest : List Byte) : Current [] rest where
  comment h := by simp [Commented] at h
  word _ := .inl (by simp [Edge])
  backslash h := by simp [Continued] at h

section Step

variable {p rest : List Byte} {b : Byte}

theorem Current.uncommented (h : Current p (b :: rest)) (hb : b ≠ 10) : ¬Commented p := fun hp =>
  hb (h.comment hp b rfl)

theorem Current.edge (h : Current p (b :: rest)) (hb : isC b = true) : Edge p := by
  have hne : b ≠ 10 := by
    rintro rfl
    exact absurd hb (by decide)
  refine (h.word (h.uncommented hne)).resolve_right fun hstop => ?_
  rw [hstop b rfl] at hb
  exact absurd hb (by decide)

theorem Current.blank (h : Current p (b :: rest)) (hb : b = 9 ∨ b = 32) :
    Current (p ++ [b]) rest where
  comment hp := by
    rw [commented_snoc (by rcases hb with rfl | rfl <;> decide)] at hp
    exact absurd hp (h.uncommented (by rcases hb with rfl | rfl <;> decide))
  word _ := .inl fun c hc => by
    obtain rfl : b = c := by simpa using hc
    exact isC_blank hb
  backslash hp := by
    have : b = 92 := by simpa using hp.1
    rcases hb with rfl | rfl <;> exact absurd this (by decide)

theorem Current.continued (h : Current p (92 :: 10 :: rest)) : Continued (p ++ [92]) := by
  refine ⟨by simp, ?_, ?_⟩
  · rw [List.dropLast_concat]
    exact h.edge rfl
  · rw [commented_snoc (by decide)]
    exact h.uncommented (by decide)

theorem Current.commented {t : List Byte} (h : Current p (35 :: (t ++ rest)))
    (hrest : ∀ b ∈ rest.head?, b = 10) : Current (p ++ 35 :: t) rest := by
  have hp : Commented (p ++ 35 :: t) := by
    refine (commented_append _ _).mpr (.inr ⟨0, Nat.succ_pos _, rfl, ?_⟩)
    rw [List.take_zero, List.append_nil]
    exact h.edge rfl
  exact ⟨fun _ => hrest, fun hnot => absurd hp hnot, fun hcont => absurd hp hcont.2.2⟩

theorem Current.text {t : List Byte} (h : Current p (t ++ rest)) (hne : t ≠ [])
    (ht : ∀ b ∈ t, isC b = true) (hhead : t.head? ≠ some 35) (hback : t = [92] → rest.head? ≠ some 10)
    (hrest : ∀ b ∈ rest.head?, isC b = false) : Current (p ++ t) rest := by
  have hinner : ∀ i, 0 < i → i < t.length → ¬Edge (p ++ t.take i) := by
    intro i hpos hi
    obtain ⟨i, rfl⟩ := Nat.exists_eq_succ_of_ne_zero hpos.ne'
    rw [List.take_succ_eq_append_getElem (by omega), ← List.append_assoc]
    exact edge_snoc_of_isC (ht _ (List.getElem_mem _))
  obtain ⟨b, bs, rfl⟩ := List.exists_cons_of_ne_nil hne
  have hb := ht b List.mem_cons_self
  have hten : b ≠ 10 := by
    rintro rfl
    exact absurd hb (by decide)
  constructor
  · intro hp
    rcases (commented_append _ _).mp hp with hp | ⟨i, hi, hhash, hedge⟩
    · exact absurd hp (h.uncommented hten)
    · rcases Nat.eq_zero_or_pos i with rfl | hpos
      · exact absurd hhash hhead
      · exact absurd hedge (hinner i hpos hi)
  · exact fun _ => .inr hrest
  · -- a word of more than the backslash is no edge
    intro hp
    refine hback ?_
    rcases Nat.eq_zero_or_pos bs.length with hnil | hpos
    · obtain rfl := List.length_eq_zero_iff.mp hnil
      have : b = 92 := by simpa using hp.1
      rw [this]
    · have hdrop := hp.2.1
      rw [List.dropLast_append_of_ne_nil hne, List.dropLast_eq_take] at hdrop
      exact absurd hdrop (hinner bs.length hpos (Nat.lt_succ_self _))

end Step

/-- `linecnt` and the lines of what was matched: every ended line but the
continued ones is counted. -/
structure Counted (c rest : List Byte) (linecnt : ℕ) : Prop where
  count : linecnt + (lines c).1.countP (fun line => decide (Continued line)) = 1 + (lines c).1.length
  current : Current (lines c).2 rest

/-- What the action of the rule that makes the token does to `linecnt`. -/
def counting : Token → ℕ → Token × ℕ
  | .newline, linecnt => (.newline, linecnt + 1)
  | .string sb, linecnt => (.string sb, linecnt)

theorem Counted.match {c m rest : List Byte} {tk : Option Token} {n : ℕ} (hm : Lexeme m rest tk)
    (h : Counted c (m ++ rest) n) :
    Counted (c ++ m) rest ((tk.map fun t => (counting t n).2).getD n) := by
  obtain ⟨hcount, hcurrent⟩ := h
  -- no newline is matched
  have hinside : (10 : Byte) ∉ m → Current ((lines c).2 ++ m) rest → Counted (c ++ m) rest n := by
    intro hten hcur
    constructor <;> rw [lines_append hten]
    · exact hcount
    · exact hcur
  cases hm with
  | blank hb =>
      refine hinside ?_ (hcurrent.blank hb)
      rcases hb with rfl | rfl <;> decide
  | continued =>
      have hcont := hcurrent.continued
      have hlines : lines (c ++ [92, 10]) = ((lines c).1 ++ [(lines c).2 ++ [92]], []) := by
        rw [show c ++ [92, 10] = (c ++ [92]) ++ [10] by simp, lines_newline,
          lines_append (by decide)]
      constructor <;> rw [hlines]
      · simp only [List.countP_append, List.countP_singleton, decide_eq_true hcont,
          List.length_append, List.length_singleton, Option.map_none, Option.getD_none]
        simp only [if_true]
        omega
      · exact .start rest
  | comment ht hrest =>
      refine hinside ?_ (hcurrent.commented hrest)
      simpa using ht
  | newline =>
      have hcont : ¬Continued (lines c).2 := fun h => hcurrent.backslash h rfl
      constructor <;> rw [lines_newline]
      · simp only [List.countP_append, List.countP_singleton, decide_eq_false hcont,
          List.length_append, List.length_singleton, Option.map_some, Option.getD_some, counting]
        simp only [Bool.false_eq_true, if_false]
        omega
      · exact .start rest
  | text hne ht hhead hback hrest =>
      refine hinside ?_ (hcurrent.text hne ht hhead hback hrest)
      intro hten
      exact absurd (ht 10 hten) (by decide)

/-! ### One token -/

theorem countingRules_eq : countingRules = yyrules.map (Rule.map counting) := rfl

theorem Lexeme.next {m rest : List Byte} {tk : Option Token} (h : Lexeme m rest tk) :
    next yyrules (m ++ rest) = (tk.map fun t => (t, rest)).or (Lib.next yyrules rest) := by
  obtain ⟨r, hlen, hlongest, hact⟩ := h.applied
  rw [next_append h.ne_nil hlen hlongest, hact]

/-- The scanner goes on to the next token, or to the end of the file. -/
theorem Counted.next {c input : List Byte} {n : ℕ} (h : Counted c input n) :
    match next yyrules input with
    | none => Counted (c ++ input) [] n
    | some (t, rest) => ∃ m, input = m ++ rest ∧ Counted (c ++ m) rest (counting t n).2 := by
  induction hlen : input.length using Nat.strong_induction_on generalizing c input with
  | h len ih =>
      by_cases hne : input = []
      · subst hne
        rw [next_nil, List.append_nil]
        exact h
      obtain ⟨m, rest, tk, rfl, hm⟩ := exists_lexeme hne
      have hpos := List.length_pos_iff.mpr hm.ne_nil
      have hstep := h.match hm
      rw [hm.next]
      cases tk with
      | some t => exact ⟨m, rfl, hstep⟩
      | none =>
          have := ih rest.length (by rw [← hlen, List.length_append]; omega) hstep rfl
          rw [Option.map_none, Option.none_or]
          split at this
          · rwa [List.append_assoc] at this
          · obtain ⟨m', rfl, hrest⟩ := this
            exact ⟨m ++ m', (List.append_assoc ..).symm, by rwa [← List.append_assoc]⟩

namespace Scanner

/-- The scanner is somewhere in the file and has counted so far. -/
structure Reading (file : List Byte) (s : Scanner) : Prop where
  split : s.consumed file ++ s.yyin = file
  counted : Counted (s.consumed file) s.yyin s.linecnt

theorem consumed_append (c : List Byte) (s : Scanner) : s.consumed (c ++ s.yyin) = c := by
  rw [consumed, List.length_append, Nat.add_sub_cancel, List.take_left]

theorem Reading.of_split {file c : List Byte} {s : Scanner} (hfile : c ++ s.yyin = file)
    (h : Counted c s.yyin s.linecnt) : Reading file s := by
  subst hfile
  constructor <;> rw [consumed_append]
  exact h

theorem Reading.start (file : List Byte) : Reading file ⟨file, 1, false⟩ :=
  .of_split (List.nil_append file) ⟨rfl, .start file⟩

theorem yylex_eq (s : Scanner) : s.yylex =
    match next yyrules s.yyin with
    | none => (none, { s with yyin := [] })
    | some (t, rest) => (some t, { s with yyin := rest, linecnt := (counting t s.linecnt).2 }) := by
  rw [yylex, countingRules_eq, next_map]
  rcases next yyrules s.yyin with _ | ⟨_ | sb, rest⟩ <;> rfl

theorem Reading.yylex {file : List Byte} {s : Scanner} (h : Reading file s) :
    Reading file s.yylex.2 := by
  have hnext := h.counted.next
  have hsplit := h.split
  rw [yylex_eq]
  split at hnext
  · refine .of_split (c := s.consumed file ++ s.yyin) ?_ hnext
    rw [List.append_nil]
    exact hsplit
  · obtain ⟨m, hm, hcounted⟩ := hnext
    refine .of_split (c := s.consumed file ++ m) ?_ hcounted
    rw [List.append_assoc, ← hm]
    exact hsplit

theorem Reading.tknext {file : List Byte} {s : Scanner} (h : Reading file s) :
    Reading file s.tknext.2 := by
  unfold Scanner.tknext
  split
  · exact h
  · have hstep := h.yylex
    split
    · next heq =>
      rw [heq] at hstep
      exact ⟨hstep.split, hstep.counted⟩
    · next heq =>
      rw [heq] at hstep
      exact hstep

theorem after_succ (file : List Byte) (calls : ℕ) :
    after file (calls + 1) = (after file calls).tknext.2 :=
  Function.iterate_succ_apply' ..

theorem reading_after (file : List Byte) (calls : ℕ) : Reading file (after file calls) := by
  induction calls with
  | zero => exact .start file
  | succ calls ih =>
      rw [after_succ]
      exact ih.tknext

/-- Every newline is counted but those of the continued lines. -/
theorem tkline_add (file : List Byte) (calls : ℕ) :
    (after file calls).tkline +
        (lines ((after file calls).consumed file)).1.countP (fun line => decide (Continued line)) =
      1 + ((after file calls).consumed file).count 10 := by
  rw [← lines_length]
  exact (reading_after file calls).counted.count

/-- **Line numbers.** Behind every call of `tknext` the number that `tkline`
gives is one more than the newlines that have been read, exactly as long as no
continued line has been. -/
theorem tkline_iff (file : List Byte) (calls : ℕ) :
    (after file calls).tkline = 1 + ((after file calls).consumed file).count 10 ↔
      ∀ line ∈ (lines ((after file calls).consumed file)).1, ¬Continued line := by
  have hadd := tkline_add file calls
  rw [← hadd, left_eq_add, List.countP_eq_zero]
  simp only [decide_eq_true_eq]

/-- A backslash and a newline in front of a word. -/
def continuedFile : List Byte := 92 :: 10 :: text "argo"

theorem after_continuedFile :
    (after continuedFile 0).tknext = (some (.string (newsb (text "argo"))), ⟨[], 1, false⟩) := by
  have hchars : Word (newsb (text "argo")) := by decide
  have hword : Lexeme (text "argo") [] (some (.string (newsb (text "argo")))) :=
    .text hchars.ne_nil hchars.isC hchars.head_ne (by decide) (by simp)
  have hnext : next yyrules continuedFile = some (.string (newsb (text "argo")), []) := by
    have hrest := hword.next
    rw [List.append_nil] at hrest
    exact ((Lexeme.continued (text "argo")).next.trans (Option.none_or ..)).trans hrest
  rw [Scanner.tknext, if_neg (by decide), yylex_eq, show (after continuedFile 0).yyin = continuedFile
    from rfl, hnext]
  rfl

/-- The word is in the second line of the file. -/
theorem tkline_continued :
    (after continuedFile 0).tknext.1 = some (.string (newsb (text "argo"))) ∧
      (after continuedFile 1).tkline ≠
        1 + ((after continuedFile 1).consumed continuedFile).count 10 := by
  rw [after_succ, after_continuedFile]
  decide

end Scanner

/-! ### The lines of the messages -/

/-- What the reader has of a scanner. -/
def Scanner.reader (s : Scanner) : Reader := ⟨if s.eof then [] else Config.yylex s.yyin, s.linecnt⟩

theorem Scanner.tknext_reader (s : Scanner) :
    Config.tknext s.reader = (s.tknext.1, s.tknext.2.reader) := by
  obtain ⟨yyin, linecnt, eof⟩ := s
  cases eof with
  | true => rfl
  | false =>
      have hscan : Config.yylex yyin = _ := scan_eq_next yyrules yyin
      simp only [reader, tknext, yylex_eq, Bool.false_eq_true, if_false, hscan]
      rcases next yyrules yyin with _ | ⟨_ | sb, rest⟩ <;> rfl

theorem Advances.after {file : List Byte} {r : Reader} (h : Advances ⟨yylex file, 1⟩ r) :
    ∃ calls, r = (Scanner.after file calls).reader := by
  induction h with
  | refl => exact ⟨0, rfl⟩
  | tail _ hstep ih =>
      obtain ⟨calls, rfl⟩ := ih
      refine ⟨calls + 1, ?_⟩
      rw [hstep, Scanner.tknext_reader, Scanner.after_succ]

/-- The line that the message of a failure names. -/
def Failure.line : Failure → Option ℕ
  | malformed line => some line
  | nameLength _ line => some line
  | classLength _ line => some line
  | argLength _ line => some line
  | _ => none

/-- The failure names the line of a token that is read from here on. -/
def Names (r : Reader) (e : Failure) : Prop :=
  ∀ line ∈ e.line, ∃ r', Advances r r' ∧ r'.linecnt = line

theorem Names.mono {r r' : Reader} {e : Failure} (he : Names r' e) (h : Advances r r') :
    Names r e := fun line hline => by
  obtain ⟨r'', hr'', heq⟩ := he line hline
  exact ⟨r'', h.trans hr'', heq⟩

theorem names_of_line {r : Reader} {e : Failure} (he : e.line = some r.linecnt) : Names r e :=
  fun line hline => by
    rw [he] at hline
    exact ⟨r, .refl, Option.some.inj hline⟩

theorem matchtoken_names {r : Reader} {e : Failure} (h : matchtoken r = .error e) : Names r e := by
  have hstep := advances_tknext r
  unfold matchtoken at h
  split at h
  · exact absurd h (by simp)
  · next htk =>
    cases h
    rw [htk] at hstep
    exact Names.mono (names_of_line rfl) hstep

theorem progargs_names {room : ℕ} {tk : Option Token} {r : Reader} {e : Failure}
    (h : progargs room tk r = .error e) : Names r e := by
  induction room generalizing tk r with
  | zero =>
      rw [progargs] at h
      · exact absurd h (by simp)
      · intro _ _ h
        exact absurd h (by simp)
  | succ room ih =>
      rcases tk with _ | _ | arg
      · exact absurd h (by simp [progargs])
      · exact absurd h (by simp [progargs])
      · have hstep := advances_tknext r
        rw [progargs] at h
        dsimp only at h
        split at h
        · cases h
          exact Names.mono (names_of_line rfl) hstep
        split at h
        · next hrest =>
          cases h
          exact (ih hrest).mono hstep
        · exact absurd h (by simp)

theorem entry_names {sys : System} {conname : Str} {r : Reader} {e : Failure}
    (h : entry sys conname r = .error e) : Names r e := by
  unfold entry at h
  split at h
  · next h₁ =>
    cases h
    exact matchtoken_names h₁
  next conclass r₁ h₁ =>
  have hr₁ := matchtoken_advances h₁
  split at h
  · next h₂ =>
    cases h
    exact (matchtoken_names h₂).mono hr₁
  next conprog r₂ h₂ =>
  have hr₂ := hr₁.trans (matchtoken_advances h₂)
  split at h
  · cases h
    exact Names.mono (names_of_line rfl) hr₂
  split at h
  · cases h
    exact Names.mono (names_of_line rfl) hr₂
  have htk := hr₂.trans (advances_tknext r₂)
  split at h
  · next h₃ =>
    cases h
    exact (progargs_names h₃).mono htk
  · next h₃ =>
    cases h
    exact Names.mono (names_of_line rfl) (htk.trans (progargs_advances h₃))
  · exact absurd h (by simp)

theorem makeEntry_advances {sys : System} {host host' : Option (List Byte)} {r r' : Reader}
    {row : Condata} (h : makeEntry sys host r = .ok (some (row, host', r'))) : Advances r r' := by
  fun_induction makeEntry sys host r with
  | case1 => exact absurd h (by simp)
  | case2 => exact absurd h (by simp)
  | case3 _ _ _ _ hskip _ ih => exact (skipNewlines_advances hskip).trans (ih h)
  | case4 => exact absurd h (by simp)
  | case5 _ _ _ _ hskip _ _ _ _ _ hentry =>
      cases h
      exact (skipNewlines_advances hskip).trans (entry_advances hentry)
  | case6 _ _ _ _ hskip _ _ _ _ _ hentry _ ih =>
      exact ((skipNewlines_advances hskip).trans (entry_advances hentry)).trans (ih h)

theorem makeEntry_names {sys : System} {host : Option (List Byte)} {r : Reader} {e : Failure}
    (h : makeEntry sys host r = .error e) : Names r e := by
  fun_induction makeEntry sys host r with
  | case1 => exact absurd h (by simp)
  | case2 =>
      cases h
      exact fun _ hline => absurd hline (by simp [Failure.line])
  | case3 _ _ _ _ hskip _ ih => exact (ih h).mono (skipNewlines_advances hskip)
  | case4 _ _ _ _ hskip _ _ _ _ hentry =>
      cases h
      exact (entry_names hentry).mono (skipNewlines_advances hskip)
  | case5 => exact absurd h (by simp)
  | case6 _ _ _ _ hskip _ _ _ _ _ hentry _ ih =>
      exact (ih h).mono ((skipNewlines_advances hskip).trans (entry_advances hentry))

theorem readEntries_names {sys : System} {host : Option (List Byte)} {r : Reader} {e : Failure}
    (h : readEntries sys host r = .error e) : Names r e := by
  fun_induction readEntries sys host r with
  | case1 _ _ _ hmake =>
      cases h
      exact makeEntry_names hmake
  | case2 => exact absurd h (by simp)
  | case3 _ _ _ _ _ hmake _ hrest ih =>
      cases h
      exact (ih hrest).mono (makeEntry_advances hmake)
  | case4 => exact absurd h (by simp)

/-- A message about a configuration file names the number that `tkline` gives
behind one of its tokens. -/
theorem readConfigurationFile_names {sys : System} {file : List Byte} {e : Failure}
    (h : readConfigurationFile sys (some file) = .error e) :
    ∀ line ∈ e.line, ∃ calls, line = (Scanner.after file calls).tkline := by
  intro line hline
  have hnames : Names ⟨yylex file, 1⟩ e := by
    unfold readConfigurationFile at h
    dsimp only at h
    split at h
    · next hread =>
      cases h
      exact readEntries_names hread
    · split at h
      · cases h
        exact absurd hline (by simp [Failure.line])
      · exact absurd h (by simp)
  obtain ⟨r, hr, rfl⟩ := hnames line hline
  obtain ⟨calls, rfl⟩ := hr.after
  exact ⟨calls, rfl⟩

end XinuConsole.Config
