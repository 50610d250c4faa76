import XinuConsole.Config.Automaton
import Mathlib.Data.List.DropRight

/-!
Continued lines: a backslash in front of a newline for a blank.

The scanner skips the two characters like a blank, unless they stand directly
behind a word. The backslash is then a character of the word, and the newline
ends the line.
-/

namespace XinuConsole.Config

open Lib

/-! ### Scanning a text in two parts -/

/-- What the scanner matches last in a text; `front` is all in front of that. -/
inductive Last (front : List Byte) : List Byte → Prop
  | blank {b : Byte} (hb : b = 9 ∨ b = 32) : Last front [b]
  | continued : Last front [92, 10]
  | newline : Last front [10]
  | comment {t : List Byte} (ht : (10 : Byte) ∉ t) : Last front (35 :: t)
  | word {t : List Byte} (hne : t ≠ []) (ht : ∀ b ∈ t, isC b = true) (hhead : t.head? ≠ some 35)
      (hstop : ∀ b ∈ front.getLast?, isC b = false) : Last front t

/-- The last match of a text is the only one that depends on what follows. -/
structure Splits (text front back : List Byte) : Prop where
  eq : text = front ++ back
  last : Last front back
  yylex_append : ∀ rest, yylex (front ++ (back ++ rest)) = yylex front ++ yylex (back ++ rest)

theorem yylex_nil : yylex [] = [] := scan_nil _

theorem Splits.single {back : List Byte} (h : Last [] back) : Splits back [] back :=
  ⟨rfl, h, fun rest => by rw [yylex_nil]; rfl⟩

/-- One more match in front of a text. -/
theorem Splits.cons {m text front back : List Byte} {ts : List Token} (hne : text ≠ [])
    (hm : ∀ rest, (∀ b ∈ rest.head?, text.head? = some b) → yylex (m ++ rest) = ts ++ yylex rest)
    (hend : (∀ b ∈ m.getLast?, isC b = false) ∨ ∀ b ∈ text.head?, isC b = false)
    (h : Splits text front back) : Splits (m ++ text) (m ++ front) back := by
  obtain ⟨rfl, hlast, happend⟩ := h
  refine ⟨(List.append_assoc ..).symm, ?_, fun rest => ?_⟩
  · cases hlast with
    | blank hb => exact .blank hb
    | continued => exact .continued
    | newline => exact .newline
    | comment ht => exact .comment ht
    | word hne ht hhead hstop =>
        refine .word hne ht hhead fun b hb => ?_
        cases hfront : front.getLast? with
        | some c =>
            rw [List.getLast?_append, hfront] at hb
            exact hstop b (hfront.trans hb)
        | none =>
            obtain rfl := List.getLast?_eq_none_iff.mp hfront
            rw [List.append_nil] at hb
            rcases hend with hend | hend
            · exact hend b hb
            · obtain ⟨c, cs, rfl⟩ := List.exists_cons_of_ne_nil hne
              exact absurd (ht c List.mem_cons_self) (by rw [hend c rfl]; exact Bool.false_ne_true)
  · have hfront : yylex (m ++ front) = ts ++ yylex front := by
      refine hm front fun b hb => ?_
      rw [List.head?_append, Option.mem_def.mp hb]
      rfl
    have hwhole : yylex (m ++ (front ++ (back ++ rest))) =
      ts ++ yylex (front ++ (back ++ rest)) := by
      refine hm _ fun b hb => ?_
      rw [← List.append_assoc, List.head?_append_of_ne_nil _ hne] at hb
      exact hb
    rw [List.append_assoc, hwhole, happend, hfront, List.append_assoc]

theorem Last.of_lexeme {m rest : List Byte} {tk : Option Token} (h : Lexeme m rest tk) :
    Last [] m := by
  cases h with
  | blank hb => exact .blank hb
  | continued => exact .continued
  | comment ht => exact .comment ht
  | newline => exact .newline
  | text hne ht hhead => exact .word hne ht hhead (by simp)

theorem exists_splits {text : List Byte} (h : text ≠ []) : ∃ front back, Splits text front back := by
  induction hlen : text.length using Nat.strong_induction_on generalizing text with
  | h len ih =>
      obtain ⟨m, rest, tk, rfl, hm⟩ := exists_lexeme h
      by_cases hrest : rest = []
      · subst hrest
        rw [List.append_nil]
        exact ⟨[], m, .single (.of_lexeme hm)⟩
      · have hpos := List.length_pos_iff.mpr hm.ne_nil
        obtain ⟨front, back, hsplits⟩ :=
          ih rest.length (by rw [← hlen, List.length_append]; omega) hrest rfl
        exact ⟨m ++ front, back, hsplits.cons hrest (fun _ hhead => (hm.congr hhead).yylex) hm.edge⟩

/-! ### The rest of a line, read as a line of its own -/

/-- The strings up to the end of the line. -/
def lineWords : List Token → List Str
  | .string w :: ts => w :: lineWords ts
  | _ => []

/-- What is behind them. -/
def behindLine : List Token → List Token
  | .string _ :: ts => behindLine ts
  | ts => ts

theorem lineWords_append (ts : List Token) : (lineWords ts).map .string ++ behindLine ts = ts := by
  induction ts with
  | nil => rfl
  | cons tok ts ih =>
      cases tok with
      | newline => rfl
      | string w => exact congrArg (Token.string w :: ·) ih

/-- The tokens begin with no string. -/
def Stops (ts : List Token) : Prop := ∀ w, ts.head? ≠ some (.string w)

theorem stops_behindLine (ts : List Token) : Stops (behindLine ts) := by
  induction ts with
  | nil => exact fun _ => by simp [behindLine]
  | cons tok ts ih =>
      cases tok with
      | newline => exact fun _ => by simp [behindLine]
      | string w => exact ih

/-- The section headers at the front of a line: the host of the last one and
the strings behind it. -/
def headers : Option (List Byte) → List Str → Option (List Byte) × List Str
  | host, [] => (host, [])
  | host, w :: ws => if w.val.getLast? = some 58 then headers (sectionHost w) ws else (host, w :: ws)

section Reading

variable {ismyname : List Byte → Bool} {host : Option (List Byte)}

theorem entries_stops {rest : List Token} (hstop : Stops rest) (e : Entry) :
    entries ismyname ⟨.args e, host⟩ rest =
      (entries ismyname ⟨.top, host⟩ rest).map (complete ismyname host e ++ ·) := by
  match rest, hstop with
  | [], _ => simp [byToken, Place.finish]
  | .newline :: ts, _ => rw [entries_args_newline, entries_top_newline]
  | .string w :: ts, h => exact absurd rfl (h w)

/-- The arguments up to the end of the line. -/
theorem entries_args_line (us : List Str) {rest : List Token} (hstop : Stops rest) {e : Entry}
    (he : e.args.length ≤ maxNumberArgs) :
    entries ismyname ⟨.args e, host⟩ (us.map .string ++ rest) =
      if e.args.length + us.length ≤ maxNumberArgs ∧ ∀ u ∈ us, u.val.length < maxArgLength then
        (entries ismyname ⟨.top, host⟩ rest).map
          (complete ismyname host { e with args := e.args ++ us } ++ ·)
      else none := by
  induction us generalizing e with
  | nil =>
      rw [if_pos ⟨he, by simp⟩, List.append_nil]
      exact entries_stops hstop e
  | cons u us ih =>
      rw [List.map_cons, List.cons_append]
      by_cases hfits : e.args.length < maxNumberArgs ∧ u.val.length < maxArgLength
      · have hlen : (e.args ++ [u]).length = e.args.length + 1 := by simp
        have hsum : e.args.length + 1 + us.length = e.args.length + (us.length + 1) := by omega
        rw [entries_args hfits.1 hfits.2, ih (hlen ▸ hfits.1)]
        simp only [hlen, hsum, List.append_assoc, List.singleton_append, List.length_cons,
          List.forall_mem_cons, hfits.2, true_and]
      · rw [entries_args_bad hfits, if_neg]
        rintro ⟨hroom, hus⟩
        refine hfits ⟨?_, hus u List.mem_cons_self⟩
        rw [List.length_cons] at hroom
        omega

theorem entries_named_stops {rest : List Token} (hstop : Stops rest) (conname : Str) :
    entries ismyname ⟨.named conname, host⟩ rest = none := by
  match rest, hstop with
  | [], _ => rfl
  | .newline :: ts, _ => exact entries_named_newline conname ts
  | .string w :: ts, h => exact absurd rfl (h w)

theorem entries_classed_stops {rest : List Token} (hstop : Stops rest) (conname conclass : Str) :
    entries ismyname ⟨.classed conname conclass, host⟩ rest = none := by
  match rest, hstop with
  | [], _ => rfl
  | .newline :: ts, _ => exact entries_classed_newline conname conclass ts
  | .string w :: ts, h => exact absurd rfl (h w)

/-- A line that begins with a connection name is an entry, if its words fit. -/
theorem entries_line {c : Str} {us : List Str} {rest : List Token} (hstop : Stops rest)
    (hne : c.val ≠ []) (hname : c.val.getLast? ≠ some 58) :
    (Fits (c :: us) → ∃ e, entries ismyname ⟨.top, host⟩ ((c :: us).map .string ++ rest) =
      (entries ismyname ⟨.top, host⟩ rest).map (complete ismyname host e ++ ·)) ∧
    (¬Fits (c :: us) →
      entries ismyname ⟨.top, host⟩ ((c :: us).map .string ++ rest) = none) := by
  have htop : entries ismyname ⟨.top, host⟩ ((c :: us).map .string ++ rest) =
      entries ismyname ⟨.named c, host⟩ (us.map .string ++ rest) := entries_top_name hne hname _
  rw [htop]
  match us with
  | [] => exact ⟨False.elim, fun _ => entries_named_stops hstop c⟩
  | [conclass] =>
    refine ⟨False.elim, fun _ => ?_⟩
    exact (entries_named c conclass _).trans (entries_classed_stops hstop c conclass)
  | conclass :: conprog :: args =>
    have hnamed : entries ismyname ⟨.named c, host⟩
      ((conclass :: conprog :: args).map .string ++ rest) =
        entries ismyname ⟨.classed c conclass, host⟩
          (.string conprog :: (args.map .string ++ rest)) :=
      entries_named c conclass _
    rw [hnamed]
    by_cases hlengths : c.val.length < maxConnectionName ∧ conclass.val.length < maxClassName
    · have hargs : entries ismyname ⟨.args ⟨c, conclass, conprog, []⟩, host⟩ _ = _ :=
        entries_args_line args hstop (Nat.zero_le _)
      rw [entries_classed hlengths.1 hlengths.2, hargs]
      simp only [List.length_nil, Nat.zero_add, List.nil_append]
      constructor
      · rintro ⟨-, -, hfits⟩
        exact ⟨⟨c, conclass, conprog, args⟩, if_pos hfits⟩
      · intro hfits
        exact if_neg fun h => hfits ⟨hlengths.1, hlengths.2, h⟩
    · refine ⟨fun hfits => absurd ⟨hfits.1, hfits.2.1⟩ hlengths, fun _ => ?_⟩
      exact entries_classed_long hlengths _ _

/-- The headers of a line only change the section. -/
theorem entries_headers (ws : List Str) (rest : List Token) :
    entries ismyname ⟨.top, host⟩ (ws.map .string ++ rest) =
      entries ismyname ⟨.top, (headers host ws).1⟩ ((headers host ws).2.map .string ++ rest) := by
  induction ws generalizing host with
  | nil => rfl
  | cons w ws ih =>
      rw [headers]
      split
      · next hheader => exact (entries_top_header hheader _).trans ih
      · rfl

theorem headers_name (host : Option (List Byte)) (ws : List Str) :
    ∀ c ∈ (headers host ws).2.head?, c.val.getLast? ≠ some 58 := by
  induction ws generalizing host with
  | nil => exact fun c hc => absurd hc (by simp [headers])
  | cons w ws ih =>
      rw [headers]
      split
      · exact ih _
      · next hname =>
          intro c hc
          obtain rfl : w = c := by simpa using hc
          exact hname

/-- The next string, if there is one, is a section header. -/
def HeaderNext (ts : List Token) : Prop :=
  ∀ w ∈ (skipNewlines ts 0).1, w.val.getLast? = some 58

theorem skipNewlines_fst (ts : List Token) (n n' : ℕ) :
    (skipNewlines ts n).1 = (skipNewlines ts n').1 := by
  induction ts generalizing n n' with
  | nil => rfl
  | cons tok ts ih =>
      cases tok with
      | newline => exact ih _ _
      | string w => rfl

theorem headerNext_newline (ts : List Token) : HeaderNext (.newline :: ts) ↔ HeaderNext ts := by
  unfold HeaderNext
  rw [skipNewlines, skipNewlines_fst ts _ 0]

/-- In front of a header the section does not matter. -/
theorem entries_of_headerNext {rest : List Token} (h : HeaderNext rest)
    (host' : Option (List Byte)) :
    entries ismyname ⟨.top, host⟩ rest = entries ismyname ⟨.top, host'⟩ rest := by
  induction rest with
  | nil => rfl
  | cons tok ts ih =>
      cases tok with
      | newline =>
          rw [entries_top_newline, entries_top_newline]
          exact ih ((headerNext_newline ts).mp h)
      | string w =>
          have hheader : w.val.getLast? = some 58 := h w rfl
          rw [entries_top_header hheader, entries_top_header hheader]

/-- In front of an entry it does, if only one of the sections is this host's. -/
theorem headerNext_of_entries {host' : Option (List Byte)} (hother : host.all ismyname = false)
    (hmine : host'.all ismyname = true) {rest : List Token} {es : List Entry}
    (h : entries ismyname ⟨.top, host⟩ rest = some es)
    (h' : entries ismyname ⟨.top, host'⟩ rest = some es) : HeaderNext rest := by
  induction rest with
  | nil => exact fun w hw => absurd hw (by simp [skipNewlines])
  | cons tok ts ih =>
      cases tok with
      | newline =>
          rw [entries_top_newline] at h h'
          exact (headerNext_newline ts).mpr (ih h h')
      | string w =>
          intro w' hw'
          obtain rfl : w = w' := by simpa [skipNewlines] using hw'
          by_contra hname
          by_cases hnil : w.val = []
          · rw [entries_top_outside hnil] at h
            exact absurd h (by simp)
          · rw [entries_top_name hnil hname] at h h'
            have hgrows := entries_grows hother hmine h h'
            rw [if_neg (by simp)] at hgrows
            exact absurd hgrows (Nat.not_succ_le_self _)

/-- Some words in a section make no difference to the table in front of `rest`:
there are none or they are an entry, and an entry in this host's section is
neither made of them nor the next to come. -/
structure AddNothing (ismyname : List Byte → Bool) (host : Option (List Byte)) (words : List Str)
    (rest : List Token) : Prop where
  named : ∀ c ∈ words.head?, c.val ≠ []
  fits : words ≠ [] → Fits words
  nothing : host.all ismyname = true → words = [] ∧ HeaderNext rest

theorem addNothing_iff {host' : Option (List Byte)} (hother : host.all ismyname = false)
    {words : List Str} {rest : List Token} (hstop : Stops rest)
    (hname : ∀ c ∈ words.head?, c.val.getLast? ≠ some 58) {es : List Entry}
    (hrest : entries ismyname ⟨.top, host⟩ rest = some es) :
    entries ismyname ⟨.top, host'⟩ (words.map .string ++ rest) = some es ↔
      AddNothing ismyname host' words rest := by
  cases words with
  | nil =>
      constructor
      · intro h
        refine ⟨by simp, fun hne => absurd rfl hne, fun hmine => ⟨rfl, ?_⟩⟩
        exact headerNext_of_entries hother hmine hrest h
      · intro h
        by_cases hmine : host'.all ismyname = true
        · exact (entries_of_headerNext (h.nothing hmine).2 host).trans hrest
        · have hsame : host'.all ismyname = host.all ismyname := by
            rw [hother]
            exact Bool.not_eq_true _ ▸ hmine
          exact (entries_congr hsame _ _).trans hrest
  | cons c us =>
      by_cases hnil : c.val = []
      · constructor
        · intro h
          exact absurd ((entries_top_outside hnil _).symm.trans h) (by simp)
        · exact fun h => absurd hnil (h.named c rfl)
      have hline : (Fits (c :: us) → ∃ e, entries ismyname ⟨.top, host'⟩ _ = _) ∧ _ :=
        entries_line hstop hnil (hname c rfl)
      obtain ⟨hfit, hmisfit⟩ := hline
      constructor
      · intro h
        have hfits : Fits (c :: us) := by
          by_contra hnot
          exact absurd ((hmisfit hnot).symm.trans h) (by simp)
        obtain ⟨e, he⟩ := hfit hfits
        obtain ⟨es', hes', hsum⟩ := Option.map_eq_some_iff.mp (he.symm.trans h)
        refine ⟨fun c' hc' => by obtain rfl : c = c' := by simpa using hc'
                                 exact hnil, fun _ => hfits, fun hmine => ?_⟩
        have hgrows := entries_grows hother hmine hrest hes'
        rw [complete_of_mine hmine] at hsum
        have hlen := congrArg List.length hsum
        simp only [List.length_append, List.length_singleton] at hlen
        omega
      · intro h
        have hmine : host'.all ismyname = false := by
          by_contra hmine
          exact absurd (h.nothing (Bool.not_eq_false _ ▸ hmine)).1 (by simp)
        obtain ⟨e, he⟩ := hfit (h.fits (by simp))
        rw [he, complete_of_not_mine hmine, entries_congr (hmine.trans hother.symm), hrest]
        rfl

/-- The rest of the line begins with section headers; the strings behind them
make no difference in the last section. -/
def RestAddsNothing (ismyname : List Byte → Bool) (host : Option (List Byte)) (ts : List Token) : Prop :=
  AddNothing ismyname (headers host (lineWords ts)).1 (headers host (lineWords ts)).2 (behindLine ts)

/-! ### An entry that is cut -/

/-- An entry that ends early, and its other strings on the next line. -/
theorem entries_cut {e e' : Entry} (hroom : e.args.length ≤ maxNumberArgs)
    (hlen : e'.args.length = e.args.length) {v : Str} {ts : List Token} {es : List Entry}
    (h : entries ismyname ⟨.args e, host⟩ (.string v :: ts) = some es) :
    (entries ismyname ⟨.top, host⟩ (.string v :: ts)).map (complete ismyname host e' ++ ·) = some es ↔
      host.all ismyname = false ∧ RestAddsNothing ismyname host (.string v :: ts) := by
  have hline := lineWords_append (.string v :: ts)
  have hstop := stops_behindLine (.string v :: ts)
  rw [← hline, entries_args_line _ hstop hroom] at h
  obtain ⟨-, h⟩ := Option.ite_none_right_eq_some.mp h
  obtain ⟨rest, hrest, rfl⟩ := Option.map_eq_some_iff.mp h
  cases hmine : host.all ismyname with
  | true =>
      refine ⟨fun hcut => ?_, fun hcut => absurd hcut.1 (by simp)⟩
      obtain ⟨rest', -, hsame⟩ := Option.map_eq_some_iff.mp hcut
      rw [complete_of_mine hmine, complete_of_mine hmine] at hsame
      have hargs := congrArg (List.length ∘ Entry.args) (List.cons.inj hsame).1
      simp only [Function.comp_apply, List.length_append, lineWords, List.length_cons] at hargs
      omega
  | false =>
      rw [complete_of_not_mine hmine, complete_of_not_mine hmine]
      simp only [List.nil_append, Option.map_id', true_and]
      rw [← hline, entries_headers, hline]
      exact addNothing_iff hmine hstop (headers_name host _) hrest

/-- The string may be the last one of the entry that the reader is in. -/
def Ends (w : Str) : Phase → Prop
  | .classed _ _ => True
  | .args _ => w.val.length < maxArgLength
  | _ => False

/-- A newline behind a word of a line, and the word perhaps with a backslash. -/
theorem entries_continued {phase : Phase} {w w' v : Str} {ts : List Token} {es : List Entry}
    (hw : w' = w ∨ w'.val = w.val ++ [92])
    (h : entries ismyname ⟨phase, host⟩ (.string w :: .string v :: ts) = some es) :
    entries ismyname ⟨phase, host⟩ (.string w' :: .newline :: .string v :: ts) = some es ↔
      (phase = .top ∧ w.val.getLast? = some 58 ∧ w' = w) ∨
        (Ends w' phase ∧ host.all ismyname = false ∧ RestAddsNothing ismyname host (.string v :: ts)) := by
  cases phase with
  | top =>
      have hnil : w.val ≠ [] := by
        intro hnil
        rw [entries_top_outside hnil] at h
        exact absurd h (by simp)
      by_cases hheader : w.val.getLast? = some 58 ∧ w' = w
      · obtain ⟨hcolon, rfl⟩ := hheader
        rw [entries_top_header hcolon] at h
        rw [entries_top_header hcolon, entries_top_newline, h]
        simp [hcolon]
      · have hname : w'.val.getLast? ≠ some 58 := by
          rcases hw with rfl | hw
          · exact fun hcolon => hheader ⟨hcolon, rfl⟩
          · rw [hw, List.getLast?_concat]
            decide
        have hnil' : w'.val ≠ [] := by
          rcases hw with rfl | hw
          · exact hnil
          · rw [hw]
            simp
        rw [entries_top_name hnil' hname, entries_named_newline]
        simpa [Ends] using hheader
  | named conname =>
      rw [entries_named, entries_classed_newline]
      simp [Ends]
  | classed conname conclass =>
      by_cases hfits : conname.val.length < maxConnectionName ∧ conclass.val.length < maxClassName
      · rw [entries_classed hfits.1 hfits.2] at h
        rw [entries_classed hfits.1 hfits.2, entries_args_newline]
        refine (entries_cut (Nat.zero_le _) ?_ h).trans ?_
        · rfl
        · simp [Ends]
      · rw [entries_classed_long hfits] at h
        exact absurd h (by simp)
  | args e =>
      by_cases hfits : e.args.length < maxNumberArgs ∧ w.val.length < maxArgLength
      · rw [entries_args hfits.1 hfits.2] at h
        by_cases hlong : w'.val.length < maxArgLength
        · rw [entries_args hfits.1 hlong, entries_args_newline]
          refine (entries_cut ?_ ?_ h).trans ?_
          · rw [List.length_append]
            exact hfits.1
          · rw [List.length_append, List.length_append]
            rfl
          · simp only [Ends, hlong, true_and, reduceCtorEq, false_and, false_or]
        · rw [entries_args_bad fun hbad => hlong hbad.2]
          simp only [Ends, hlong, reduceCtorEq, false_and, or_self]
      · rw [entries_args_bad hfits] at h
        exact absurd h (by simp)

end Reading

/-! ### A blank between two words -/

/-- The blank separates two strings of a line: the text in front of it ends with
one and the text behind it begins with one, as parts of the whole text and not of
a comment. -/
structure Separates (front : List Byte) (b : Byte) (behind : List Byte) : Prop where
  blank : b = 9 ∨ b = 32
  front_string : ∃ ts w, yylex front = ts ++ [.string w]
  behind_string : ∃ v ts, yylex behind = .string v :: ts
  yylex_eq : yylex (front ++ b :: behind) = yylex front ++ yylex behind

/-- The word in front of a backslash, with the backslash. -/
def continuedWord (front : List Byte) : Str := newsb (front.rtakeWhile isC ++ [92])

theorem rtakeWhile_append_of_stop {p t : List Byte} (ht : ∀ b ∈ t, isC b = true)
    (hp : ∀ b ∈ p.getLast?, isC b = false) : (p ++ t).rtakeWhile isC = t := by
  rw [List.rtakeWhile, List.reverse_append, takeWhile_append_of_stop, List.reverse_reverse]
  · exact fun b hb => ht b (List.mem_reverse.mp hb)
  · intro b hb
    rw [List.head?_reverse] at hb
    exact hp b hb

/-- `newsb` does not see what is behind a NUL. -/
theorem newsb_snoc (t : List Byte) (b : Byte) (hb : b ≠ 0) :
    ((0 : Byte) ∈ t ∧ newsb (t ++ [b]) = newsb t) ∨
      ((0 : Byte) ∉ t ∧ (newsb (t ++ [b])).val = (newsb t).val ++ [b]) := by
  by_cases hnul : (0 : Byte) ∈ t
  · left
    refine ⟨hnul, Subtype.ext ?_⟩
    show cstr (t ++ [b]) = cstr t
    obtain ⟨s, hs⟩ : ∃ s, t = cstr t ++ 0 :: s := ⟨_, eq_cstr_append_of_mem hnul⟩
    rw [hs, List.append_assoc, List.cons_append, cstr_append_zero (zero_not_mem_cstr t),
      cstr_append_zero (zero_not_mem_cstr t)]
  · right
    refine ⟨hnul, ?_⟩
    show cstr (t ++ [b]) = cstr t ++ [b]
    rw [cstr_of_not_mem hnul, cstr_of_not_mem]
    simp [hnul, Ne.symm hb]

/-- No string comes of a comment. -/
theorem stops_comment (t : List Byte) : Stops (yylex (35 :: t)) := by
  have hten : (10 : Byte) ∉ t.takeWhile fun b => decide (b ≠ 10) := fun h =>
    absurd (List.mem_takeWhile_imp h) (by simp)
  have hrest : ∀ b ∈ (t.dropWhile fun b => decide (b ≠ 10)).head?, b = 10 := by
    intro b hb
    simpa using head?_dropWhile_isFalse _ t b hb
  have hyylex := yylex_comment hten hrest
  rw [List.takeWhile_append_dropWhile] at hyylex
  rw [hyylex]
  intro w
  cases hdrop : t.dropWhile fun b => decide (b ≠ 10) with
  | nil => simp [yylex_nil]
  | cons b bs =>
      obtain rfl : b = 10 := hrest b (by rw [hdrop]; rfl)
      simp [yylex_newline]

/-- The tokens with a continued line for the blank: the same ones behind other
white space, and a longer word and a newline directly behind a word. -/
theorem Separates.cases {front behind : List Byte} {b : Byte} (h : Separates front b behind) :
    ((∀ c ∈ front.getLast?, isC c = false) ∧
        yylex (front ++ 92 :: 10 :: behind) = yylex front ++ yylex behind) ∨
      (¬(∀ c ∈ front.getLast?, isC c = false) ∧ ∃ ts,
        yylex front = ts ++ [.string (newsb (front.rtakeWhile isC))] ∧
        yylex (front ++ 92 :: 10 :: behind) =
          ts ++ .string (continuedWord front) :: .newline :: yylex behind) := by
  obtain ⟨hblank, ⟨ts, w, hfront⟩, ⟨v, vs, hbehind⟩, hwhole⟩ := h
  have hne : front ≠ [] := by
    rintro rfl
    exact absurd (yylex_nil.symm.trans hfront) (by simp)
  obtain ⟨p, l, rfl, hlast, happend⟩ := exists_splits hne
  have hself := happend []
  have hcont := happend (92 :: 10 :: behind)
  have horig := happend (b :: behind)
  rw [List.append_nil] at hself
  rw [List.append_assoc] at hwhole
  cases hlast with
  | @blank c hc =>
      left
      constructor
      · intro c' hc'
        obtain rfl : c = c' := by simpa using hc'
        exact isC_blank hc
      · rw [List.append_assoc, hcont, hself, List.singleton_append, yylex_blank hc, yylex_blank hc,
          yylex_continuation, yylex_nil, List.append_nil]
  | continued =>
      left
      constructor
      · intro c hc
        obtain rfl : 10 = c := by simpa using hc
        rfl
      · rw [List.append_assoc, hcont, hself]
        change _ ++ yylex (92 :: 10 :: 92 :: 10 :: behind) = (_ ++ yylex [92, 10]) ++ _
        rw [yylex_continuation, yylex_continuation, yylex_continuation, yylex_nil, List.append_nil]
  | newline =>
      rw [hself, yylex_newline, yylex_nil] at hfront
      exact absurd (List.append_inj' hfront rfl).2 (by simp)
  | @comment t ht =>
      -- the text behind the blank is in the comment, and gives no string
      have hcomment : yylex (35 :: t) = [] := by
        have hread : yylex (35 :: (t ++ [])) = yylex [] := yylex_comment ht (by simp)
        rwa [List.append_nil, yylex_nil] at hread
      rw [horig, hself, hcomment, List.append_nil, hbehind] at hwhole
      have hstring := List.append_cancel_left hwhole
      exact absurd (congrArg List.head? hstring) (stops_comment (t ++ b :: behind) v)
  | word hword ht hhead hstop =>
      right
      rw [continuedWord, rtakeWhile_append_of_stop ht hstop]
      refine ⟨fun hspaced => ?_, yylex p, ?_, ?_⟩
      · obtain ⟨c, hc⟩ : ∃ c, l.getLast? = some c := ⟨_, List.getLast?_eq_some_getLast hword⟩
        have hfalse := hspaced c (by rw [List.getLast?_append, hc]; rfl)
        rw [ht c (List.mem_of_getLast? hc)] at hfalse
        exact absurd hfalse (by simp)
      · have htext : yylex (l ++ []) = _ := yylex_text hword ht hhead (by simp) (by simp)
        rw [List.append_nil, yylex_nil] at htext
        rw [hself, htext]
      · have htext : yylex ((l ++ [92]) ++ 10 :: behind) = _ := yylex_text (by simp) ?_ ?_ ?_ ?_
        · rw [List.append_assoc, hcont, ← yylex_newline, ← htext, List.append_assoc]
          rfl
        · intro c hc
          rcases List.mem_append.mp hc with hc | hc
          · exact ht c hc
          · obtain rfl := List.mem_singleton.mp hc
            rfl
        · rwa [List.head?_append_of_ne_nil _ hword]
        · intro hback
          obtain ⟨c, cs, rfl⟩ := List.exists_cons_of_ne_nil hword
          exact absurd (congrArg List.length hback) (by simp)
        · intro c hc
          obtain rfl : 10 = c := by simpa using hc
          rfl

/-! ### The table -/

/-- Where a continued line does no harm: behind other white space, or directly
behind a word that is a section header with a NUL in its text, or directly
behind the program or an argument of an entry that is left out for its section,
if the rest of its line adds nothing to the table. -/
inductive Harmless (ismyname : List Byte → Bool) (front behind : List Byte) : Prop
  | spaced (h : ∀ c ∈ front.getLast?, isC c = false)
  | header {ts : List Token} {w : Str} {host : Option (List Byte)} {es : List Entry}
      (hfront : yylex front = ts ++ [.string w])
      (hplace : (byToken ismyname).walk .start ts = some (⟨.top, host⟩, es))
      (hheader : w.val.getLast? = some 58) (hnul : (0 : Byte) ∈ front.rtakeWhile isC)
  | elsewhere {ts : List Token} {w : Str} {phase : Phase} {host : Option (List Byte)}
      {es : List Entry} (hfront : yylex front = ts ++ [.string w])
      (hplace : (byToken ismyname).walk .start ts = some (⟨phase, host⟩, es))
      (hends : Ends (continuedWord front) phase) (hother : host.all ismyname = false)
      (hrest : RestAddsNothing ismyname host (yylex behind))

/-- A file has the table of an accepted one if the same entries come out. -/
theorem same_table_iff {sys : System} {f : List Byte} {rows : List Condata}
    (h : readConfigurationFile sys (some f) = .ok rows) :
    ∃ es, entries sys.ismyname .start (yylex f) = some es ∧ ∀ f',
      (∃ rows', readConfigurationFile sys (some f') = .ok rows' ∧
        rows'.map stored = rows.map stored) ↔ entries sys.ismyname .start (yylex f') = some es := by
  obtain ⟨es, hes, hstored, hle⟩ := (readConfigurationFile_entries sys f _).mp ⟨rows, h, rfl⟩
  refine ⟨es, hes, fun f' => (readConfigurationFile_entries sys f' _).trans ?_⟩
  constructor
  · rintro ⟨es', hes', hstored', -⟩
    rw [hes', List.map_injective_iff.mpr Entry.stored_injective (hstored'.trans hstored.symm)]
  · exact fun hes' => ⟨es, hes', hstored, hle⟩

/-- **A backslash and a newline stand for a blank between two words of a line**,
with the same table, exactly where other white space is in front of them, or the
difference happens to be harmless. -/
theorem continuation_iff {sys : System} {front behind : List Byte} {b : Byte} {rows : List Condata}
    (hseparates : Separates front b behind)
    (h : readConfigurationFile sys (some (front ++ b :: behind)) = .ok rows) :
    (∃ rows', readConfigurationFile sys (some (front ++ 92 :: 10 :: behind)) = .ok rows' ∧
      rows'.map stored = rows.map stored) ↔ Harmless sys.ismyname front behind := by
  obtain ⟨es, hes, hsame⟩ := same_table_iff h
  rw [hsame]
  rw [hseparates.yylex_eq] at hes
  rcases hseparates.cases with ⟨hspaced, hcont⟩ | ⟨hdirect, ts, hfront, hcont⟩
  · rw [hcont]
    exact ⟨fun _ => .spaced hspaced, fun _ => hes⟩
  obtain ⟨v, vs, hbehind⟩ := hseparates.behind_string
  rw [hfront, List.append_assoc] at hes
  obtain ⟨⟨phase, host⟩, es₀, hwalk, hrest⟩ := Transducer.exists_walk hes
  obtain ⟨es₁, hes₁, rfl⟩ := Option.map_eq_some_iff.mp hrest
  rw [hbehind] at hes₁ hcont
  have hnul := newsb_snoc (front.rtakeWhile isC) 92 (by decide)
  have hcontinued : continuedWord front = newsb (front.rtakeWhile isC) ∨
      (continuedWord front).val = (newsb (front.rtakeWhile isC)).val ++ [92] := by
    rcases hnul with ⟨-, heq⟩ | ⟨-, heq⟩
    · exact .inl heq
    · exact .inr heq
  have hiff := entries_continued hcontinued hes₁
  have hcut : entries sys.ismyname .start (yylex (front ++ 92 :: 10 :: behind)) = some
    (es₀ ++ es₁) ↔
      entries sys.ismyname ⟨phase, host⟩ (.string (continuedWord front) :: .newline ::
        .string v :: vs) = some es₁ := by
    rw [hcont, entries, Transducer.output_append_of_walk hwalk]
    constructor
    · intro h
      obtain ⟨es', hes', heq⟩ := Option.map_eq_some_iff.mp h
      exact hes'.trans (congrArg some (List.append_cancel_left heq))
    · exact fun h => congrArg (Option.map (es₀ ++ ·)) h
  rw [hcut, hiff]
  constructor
  · rintro (⟨rfl, hheader, hword⟩ | ⟨hends, hother, hadds⟩)
    · refine .header hfront hwalk hheader ?_
      rcases hnul with ⟨hmem, -⟩ | ⟨-, heq⟩
      · exact hmem
      · have hlen := congrArg List.length (heq.symm.trans (congrArg Subtype.val hword))
        simp at hlen
    · exact .elsewhere hfront hwalk hends hother (hbehind ▸ hadds)
  · rintro (hspaced | ⟨hfront', hplace, hheader, hmem⟩ | ⟨hfront', hplace, hends, hother, hadds⟩)
    · exact absurd hspaced hdirect
    · obtain ⟨rfl, hw⟩ := List.append_inj' (hfront.symm.trans hfront') rfl
      obtain rfl : newsb (front.rtakeWhile isC) = _ := by simpa using hw
      obtain ⟨⟨rfl, rfl⟩, rfl⟩ : (_ ∧ _) ∧ _ := by simpa using hwalk.symm.trans hplace
      rcases hnul with ⟨-, heq⟩ | ⟨hnot, -⟩
      · exact .inl ⟨rfl, hheader, heq⟩
      · exact absurd hmem hnot
    · obtain ⟨rfl, -⟩ := List.append_inj' (hfront.symm.trans hfront') rfl
      obtain ⟨⟨rfl, rfl⟩, rfl⟩ : (_ ∧ _) ∧ _ := by simpa using hwalk.symm.trans hplace
      exact .inr ⟨hends, hother, hbehind ▸ hadds⟩

/-- Where all sections are this host's and the text has no NUL in it, only the
white space in front counts. -/
theorem harmless_iff_spaced {ismyname : List Byte → Bool} (hmine : ∀ name, ismyname name = true)
    {front : List Byte} (hnul : (0 : Byte) ∉ front) (behind : List Byte) :
    Harmless ismyname front behind ↔ ∀ c ∈ front.getLast?, isC c = false := by
  refine ⟨?_, .spaced⟩
  intro h
  cases h with
  | spaced hspaced => exact hspaced
  | header _ _ _ hmem => exact absurd ((List.rtakeWhile_suffix isC front).subset hmem) hnul
  | @elsewhere _ _ _ host _ _ _ _ hother =>
      cases host with
      | none => exact absurd hother (by simp)
      | some name => exact absurd hother (by simp [hmine name])

/-- Any blank between the words of a line separates them. -/
theorem Words.separates {ws ws' : List Str} {bs gap bs' : List Byte} {b : Byte} (hws : Words ws bs)
    (hgap : Lead gap) (hb : b = 9 ∨ b = 32) (hws' : Words ws' bs') : Separates (bs ++ gap) b bs' := by
  have hnil : yylex gap = [] := by
    rw [← List.append_nil gap, hgap.yylex_append, yylex_nil]
  have hstops : ∀ rest, (∀ c ∈ rest.head?, isC c = false) → ∀ c ∈ (gap ++ rest).head?,
    isC c = false := by
    intro rest hrest
    cases hgap with
    | nil => exact hrest
    | blanks hbs => exact hbs.isC_head rest
  have hfront : yylex (bs ++ gap) = ws.map .string := by
    have hread : yylex (bs ++ gap) = ws.map .string ++ yylex gap :=
      hws.yylex_append (by simpa using hstops [] (by simp))
    rw [hread, hnil, List.append_nil]
  have hbehind : yylex bs' = ws'.map .string := by
    have hread : yylex (bs' ++ []) = ws'.map .string ++ yylex [] := hws'.yylex_append (by simp)
    rwa [List.append_nil, yylex_nil, List.append_nil] at hread
  refine ⟨hb, ?_, ?_, ?_⟩
  · rcases List.eq_nil_or_concat ws with rfl | ⟨ws₀, w, rfl⟩
    · cases hws
    · exact ⟨ws₀.map .string, w, by rw [hfront, List.concat_eq_append, List.map_append]; rfl⟩
  · cases hws' with
    | single => exact ⟨_, [], hbehind⟩
    | cons => exact ⟨_, _, hbehind⟩
  · have hread : yylex (bs ++ (gap ++ b :: bs')) = ws.map .string ++ yylex (gap ++ b :: bs') :=
      hws.yylex_append (hstops _ fun c hc => by
        obtain rfl : b = c := by simpa using hc
        exact isC_blank hb)
    rw [List.append_assoc, hread, hgap.yylex_append, yylex_blank hb, hfront]

/-! ### One line -/

def thisHost : System := ⟨fun _ => true, fun _ => CharArray.zero _, fun _ => 0⟩

/-- The line of an entry is read. -/
theorem Words.read {ws : List Str} {bs : List Byte} (hws : Words ws bs) {w : Str} {ws' : List Str}
    (hcons : ws = w :: ws') (hname : w.val.getLast? ≠ some 58) (hfits : Fits ws) :
    ∃ rows, readConfigurationFile thisHost (some bs) = .ok rows := by
  subst hcons
  have hline : Line (some (.entry (w :: ws'))) ([] ++ (bs ++ [])) := .entry .nil hws hname .nil
  rw [List.nil_append, List.append_nil] at hline
  obtain ⟨rows, hrows, -⟩ := (Layout.last hline).rows thisHost (by
    intro words hmem
    obtain rfl : words = w :: ws' := by simpa using hmem
    exact hfits) (by simp [selected, thisHost])
  exact ⟨rows, hrows⟩

theorem argo_words : Words [newsb (text "argo")] (text "argo") := .single (by decide)

theorem mips_words : Words [newsb (text "mips"), newsb (text "/bin/cat")] (text "mips /bin/cat") :=
  .cons (w := newsb (text "mips")) (by decide) (.blank (Or.inr rfl))
    (.single (w := newsb (text "/bin/cat")) (by decide))

/-- The second of two blanks is replaced. -/
theorem continuation_second :
    ∃ rows rows', readConfigurationFile thisHost (some (text "argo  mips /bin/cat")) = .ok rows ∧
      readConfigurationFile thisHost (some (text "argo \\\nmips /bin/cat")) = .ok rows' ∧
      rows'.map stored = rows.map stored := by
  have hwords : Words [newsb (text "argo"), newsb (text "mips"), newsb (text "/bin/cat")]
      (text "argo  mips /bin/cat") :=
    .cons (w := newsb (text "argo")) (by decide)
      (.append (.blank (Or.inr rfl)) (.blank (Or.inr rfl)))
      mips_words
  obtain ⟨rows, hrows⟩ := hwords.read rfl (by decide) ⟨by decide, by decide, by decide, by decide⟩
  have hseparates : Separates (text "argo ") 32 (text "mips /bin/cat") :=
    argo_words.separates (.blanks (.blank (Or.inr rfl))) (Or.inr rfl) mips_words
  have hspaced : ∀ c ∈ (text "argo ").getLast?, isC c = false := by
    intro c hc
    obtain rfl : 32 = c := Option.some.inj hc
    rfl
  obtain ⟨rows', hrows', hsame⟩ := (continuation_iff hseparates hrows).mpr (.spaced hspaced)
  exact ⟨rows, rows', hrows, hrows', hsame⟩

/-- The only blank behind the name is replaced: the file is not accepted. -/
theorem continuation_first :
    Separates (text "argo") 32 (text "mips /bin/cat") ∧
    (∃ rows, readConfigurationFile thisHost (some (text "argo mips /bin/cat")) = .ok rows) ∧
    ∃ e, readConfigurationFile thisHost (some (text "argo\\\nmips /bin/cat")) = .error e := by
  refine ⟨?_, ?_, ?_⟩
  · have hseparates := argo_words.separates .nil (Or.inr rfl) mips_words (b := 32)
    rwa [List.append_nil] at hseparates
  · have hwords : Words [newsb (text "argo"), newsb (text "mips"), newsb (text "/bin/cat")]
        (text "argo mips /bin/cat") :=
      .cons (w := newsb (text "argo")) (by decide) (.blank (Or.inr rfl)) mips_words
    exact hwords.read rfl (by decide) ⟨by decide, by decide, by decide, by decide⟩
  · have hargo : Line (some (.entry [newsb (text "argo\\")])) (text "argo\\") :=
      .entry .nil (.single (w := newsb (text "argo\\")) (by decide)) (by decide) .nil
    have hmips : Line (some (.entry [newsb (text "mips"), newsb (text "/bin/cat")]))
        (text "mips /bin/cat") := .entry .nil mips_words (by decide) .nil
    exact (Layout.cons hargo (.last hmips)).misfit thisHost
      ⟨[newsb (text "argo\\")], List.mem_cons_self, id⟩

end XinuConsole.Config
