import XinuConsole.Config.Reader

/-!
The layouts of a configuration file and the table that is read from them.

A file is a list of lines: entries, section headers and lines with nothing for
the reader. Blanks separate the words of a line, where a backslash in front of a
newline counts as a blank behind another one. The table has the entries in front
of the first section and those of the sections of this host.
-/

namespace XinuConsole.Config

open Lib

/-- One or more blanks. -/
inductive Blanks : List Byte → Prop
  | blank {b : Byte} (hb : b = 9 ∨ b = 32) : Blanks [b]
  | continued {b : Byte} (hb : b = 9 ∨ b = 32) : Blanks [b, 92, 10]
  | append {bs bs' : List Byte} : Blanks bs → Blanks bs' → Blanks (bs ++ bs')

/-- Words with blanks between them. -/
inductive Words : List Str → List Byte → Prop
  | single {w : Str} (hw : Word w) : Words [w] w.val
  | cons {w : Str} {ws : List Str} {bs bs' : List Byte} (hw : Word w) (hbs : Blanks bs)
      (hws : Words ws bs') : Words (w :: ws) (w.val ++ (bs ++ bs'))

/-- What may stand in front of the first word of a line. -/
inductive Lead : List Byte → Prop
  | nil : Lead []
  | blanks {bs : List Byte} (hbs : Blanks bs) : Lead bs

/-- What may stand behind the last word of a line. -/
inductive Trail : List Byte → Prop
  | nil : Trail []
  | blanks {bs : List Byte} (hbs : Blanks bs) : Trail bs
  | comment {bs t : List Byte} (hbs : Blanks bs) (ht : (10 : Byte) ∉ t) : Trail (bs ++ 35 :: t)

/-- The name of a host with a colon behind it. -/
def colon (host : Str) : Str :=
  ⟨host.val ++ [58], fun h => by
    rcases List.mem_append.mp h with h | h
    · exact host.property h
    · exact absurd h (by decide)⟩

/-- A line of the file for the reader: the words of an entry, or a section
header with the name of its host, which is empty for the end of sections. -/
inductive Item
  | entry (words : List Str)
  | host (name : Str)

/-- The bytes of a line, without its newline. -/
inductive Line : Option Item → List Byte → Prop
  | empty {bs : List Byte} (hbs : Trail bs) : Line none bs
  | comment {t : List Byte} (ht : (10 : Byte) ∉ t) : Line none (35 :: t)
  | entry {w : Str} {ws : List Str} {lead bs trail : List Byte} (hlead : Lead lead)
      (hws : Words (w :: ws) bs) (hname : w.val.getLast? ≠ some 58) (htrail : Trail trail) :
      Line (some (.entry (w :: ws))) (lead ++ (bs ++ trail))
  | host {name : Str} {lead trail : List Byte} (hlead : Lead lead) (hname : Word (colon name))
      (htrail : Trail trail) : Line (some (.host name)) (lead ++ ((colon name).val ++ trail))

/-- The bytes of the file: lines with a newline between them. A file that ends
with a newline has an empty last line. -/
inductive Layout : List (Option Item) → List Byte → Prop
  | last {line : Option Item} {bs : List Byte} (h : Line line bs) : Layout [line] bs
  | cons {line : Option Item} {lines : List (Option Item)} {bs file : List Byte} (h : Line line bs)
      (hlines : Layout lines file) : Layout (line :: lines) (bs ++ 10 :: file)

/-- The words of an entry are enough and not too many, and not too long. -/
def Fits : List Str → Prop
  | conname :: conclass :: _ :: args =>
      conname.val.length < maxConnectionName ∧ conclass.val.length < maxClassName ∧
        args.length ≤ maxNumberArgs ∧ ∀ arg ∈ args, arg.val.length < maxArgLength
  | _ => False

/-- The entries in no section or in one of this host, in the order of the file.
`host` is the host of the section that the lines are in. -/
def selected (ismyname : List Byte → Bool) :
    Option (List Byte) → List (Option Item) → List (List Str)
  | _, [] => []
  | host, none :: lines => selected ismyname host lines
  | _, some (.host name) :: lines =>
      selected ismyname (if name.val = [] then none else some name.val) lines
  | host, some (.entry words) :: lines =>
      if host.all ismyname then words :: selected ismyname host lines
      else selected ismyname host lines

/-- A row as it is when its entry has been read: name, class, program and
arguments are the words, and nobody holds it. -/
def IsRow (row : Condata) (words : List Str) : Prop :=
  row.conname :: row.conclass :: row.conprog :: row.progargs = words.map Subtype.val ∧
    row.conpid = badPid ∧ row.userName = []

theorem IsRow.words {row : Condata} {conname conclass conprog : Str} {args : List Str}
    (h : IsRow row (conname :: conclass :: conprog :: args)) :
    row.conname = conname.val ∧ row.conclass = conclass.val ∧ row.conprog = conprog.val ∧
      row.progargs = args.map Subtype.val := by
  simpa using h.1

/-! ### The tokens of a layout -/

def lineTokens : Option Item → List Token
  | none => []
  | some (.entry words) => words.map .string
  | some (.host name) => [.string (colon name)]

/-- The tokens of lines: a newline behind each but the last. -/
def fileTokens : List (Option Item) → List Token
  | [] => []
  | [line] => lineTokens line
  | line :: lines => lineTokens line ++ .newline :: fileTokens lines

/-- The end of a line: of the file, or in front of a newline. -/
def EndOfLine (rest : List Byte) : Prop := ∀ b ∈ rest.head?, b = 10

theorem EndOfLine.isC {rest : List Byte} (h : EndOfLine rest) :
    ∀ b ∈ rest.head?, isC b = false := by
  intro b hb
  rw [h b hb]
  rfl

namespace Blanks

variable {bs : List Byte}

theorem head (h : Blanks bs) : ∃ b bs', bs = b :: bs' ∧ (b = 9 ∨ b = 32) := by
  induction h with
  | blank hb | continued hb => exact ⟨_, _, rfl, hb⟩
  | append _ _ ih _ =>
      obtain ⟨b, bs', rfl, hb⟩ := ih
      exact ⟨b, _, rfl, hb⟩

/-- A word ends in front of blanks. -/
theorem isC_head (h : Blanks bs) (rest : List Byte) : ∀ b ∈ (bs ++ rest).head?, isC b = false := by
  obtain ⟨b, bs', rfl, hb⟩ := h.head
  intro b' hb'
  obtain rfl : b = b' := Option.some.inj hb'
  exact isC_blank hb

theorem yylex_append (h : Blanks bs) (rest : List Byte) : yylex (bs ++ rest) = yylex rest := by
  induction h generalizing rest with
  | blank hb => exact yylex_blank hb rest
  | continued hb => exact (yylex_blank hb _).trans (yylex_continuation rest)
  | append _ _ ih ih' => rw [List.append_assoc, ih, ih']

end Blanks

namespace Trail

variable {bs : List Byte}

theorem isC_head (h : Trail bs) {rest : List Byte} (hrest : EndOfLine rest) :
    ∀ b ∈ (bs ++ rest).head?, isC b = false := by
  cases h with
  | nil => exact hrest.isC
  | blanks hbs => exact hbs.isC_head rest
  | comment hbs =>
      rw [List.append_assoc]
      exact hbs.isC_head _

theorem yylex_append (h : Trail bs) {rest : List Byte} (hrest : EndOfLine rest) :
    yylex (bs ++ rest) = yylex rest := by
  cases h with
  | nil => rfl
  | blanks hbs => exact hbs.yylex_append rest
  | comment hbs ht =>
      rw [List.append_assoc, hbs.yylex_append]
      exact yylex_comment ht hrest

end Trail

theorem Lead.yylex_append {bs : List Byte} (h : Lead bs) (rest : List Byte) :
    yylex (bs ++ rest) = yylex rest := by
  cases h with
  | nil => rfl
  | blanks hbs => exact hbs.yylex_append rest

theorem Words.yylex_append {ws : List Str} {bs : List Byte} (h : Words ws bs) {rest : List Byte}
    (hrest : ∀ b ∈ rest.head?, isC b = false) :
    yylex (bs ++ rest) = ws.map .string ++ yylex rest := by
  induction h with
  | single hw => exact yylex_word hw hrest
  | cons hw hbs _ ih =>
      rw [List.append_assoc, List.append_assoc, yylex_word hw (hbs.isC_head _), hbs.yylex_append,
        ih]
      rfl

theorem Line.yylex_append {line : Option Item} {bs : List Byte} (h : Line line bs)
    {rest : List Byte} (hrest : EndOfLine rest) :
    yylex (bs ++ rest) = lineTokens line ++ yylex rest := by
  cases h with
  | empty hbs => exact hbs.yylex_append hrest
  | comment ht => exact yylex_comment ht hrest
  | entry hlead hws _ htrail =>
      rw [List.append_assoc, List.append_assoc, hlead.yylex_append,
        hws.yylex_append (htrail.isC_head hrest), htrail.yylex_append hrest]
      rfl
  | host hlead hname htrail =>
      rw [List.append_assoc, List.append_assoc, hlead.yylex_append,
        yylex_word hname (htrail.isC_head hrest), htrail.yylex_append hrest]
      rfl

/-- The scanner sees the lines of a layout. -/
theorem Layout.yylex_eq {lines : List (Option Item)} {file : List Byte} (h : Layout lines file) :
    yylex file = fileTokens lines := by
  induction h with
  | @last line bs h =>
      have hline : yylex (bs ++ []) = lineTokens line ++ yylex [] :=
        h.yylex_append fun b hb => absurd hb (by simp)
      rw [List.append_nil] at hline
      rw [hline]
      show lineTokens line ++ yylex [] = lineTokens line
      rw [yylex, scan_nil, List.append_nil]
  | @cons line lines bs file h hlines ih =>
      have hend : EndOfLine (10 :: file) := fun b hb => (Option.some.inj hb).symm
      rw [h.yylex_append hend, yylex_newline, ih]
      cases hlines <;> rfl

/-! ### One entry -/

/-- The tokens behind a line: none, or its newline and the lines that follow. -/
def restTokens : List (Option Item) → List Token
  | [] => []
  | line :: lines => .newline :: fileTokens (line :: lines)

theorem fileTokens_cons (line : Option Item) (lines : List (Option Item)) :
    fileTokens (line :: lines) = lineTokens line ++ restTokens lines := by
  cases lines with
  | nil => exact (List.append_nil _).symm
  | cons _ _ => rfl

/-- The token behind a line is no string, and the lines that follow are left. -/
theorem tknext_rest (lines : List (Option Item)) (n : ℕ) :
    ∃ tk n', tknext ⟨restTokens lines, n⟩ = (tk, ⟨fileTokens lines, n'⟩) ∧
      ∀ sb, tk ≠ some (.string sb) := by
  cases lines with
  | nil => exact ⟨none, n, rfl, fun _ => by simp⟩
  | cons line lines => exact ⟨some .newline, n + 1, rfl, fun _ => by simp⟩

theorem progargs_stop (room : ℕ) {tk : Option Token} (htk : ∀ sb, tk ≠ some (.string sb))
    (r : Reader) : progargs room tk r = .ok ([], tk, r) := by
  rcases tk with _ | _ | sb
  · cases room <;> rfl
  · cases room <;> rfl
  · exact absurd rfl (htk sb)

/-- Arguments that fit are read up to the end of their line. -/
theorem progargs_ok {args : List Str} {room : ℕ} (hroom : args.length ≤ room)
    (hargs : ∀ arg ∈ args, arg.val.length < maxArgLength) (lines : List (Option Item)) (n : ℕ) :
    ∃ tk n', progargs room (tknext ⟨args.map .string ++ restTokens lines, n⟩).1
        (tknext ⟨args.map .string ++ restTokens lines, n⟩).2 =
      .ok (args.map Subtype.val, tk, ⟨fileTokens lines, n'⟩) ∧ ∀ sb, tk ≠ some (.string sb) := by
  induction args generalizing room with
  | nil =>
      obtain ⟨tk, n', htk, hstop⟩ := tknext_rest lines n
      refine ⟨tk, n', ?_, hstop⟩
      rw [List.map_nil, List.nil_append, htk]
      exact progargs_stop room hstop _
  | cons arg args ih =>
      obtain ⟨room, rfl⟩ : ∃ k, room = k + 1 := ⟨room - 1, by simp at hroom; omega⟩
      obtain ⟨tk, n', hrun, hstop⟩ := ih (Nat.le_of_succ_le_succ hroom)
        fun a ha => hargs a (List.mem_cons_of_mem _ ha)
      refine ⟨tk, n', ?_, hstop⟩
      have hshort : ¬maxArgLength ≤ arg.val.length :=
        Nat.not_le.mpr (hargs arg List.mem_cons_self)
      show progargs (room + 1) (some (.string arg)) ⟨args.map .string ++ restTokens lines, n⟩ = _
      rw [progargs]
      dsimp only
      rw [if_neg hshort, hrun]
      rfl

/-- Too many arguments leave a string behind the last, and a long one ends the
daemon. -/
theorem progargs_bad {args : List Str} {room : ℕ}
    (h : ¬(args.length ≤ room ∧ ∀ arg ∈ args, arg.val.length < maxArgLength)) (ts : List Token)
    (n : ℕ) :
    (∃ e, progargs room (tknext ⟨args.map .string ++ ts, n⟩).1
        (tknext ⟨args.map .string ++ ts, n⟩).2 = .error e) ∨
      ∃ as sb r, progargs room (tknext ⟨args.map .string ++ ts, n⟩).1
        (tknext ⟨args.map .string ++ ts, n⟩).2 = .ok (as, some (.string sb), r) := by
  induction args generalizing room with
  | nil => exact absurd ⟨Nat.zero_le _, fun _ h => absurd h (by simp)⟩ h
  | cons arg args ih =>
      show (∃ e, progargs room (some (.string arg)) ⟨args.map .string ++ ts, n⟩ = .error e) ∨
        ∃ as sb r, progargs room (some (.string arg)) ⟨args.map .string ++ ts, n⟩ =
          .ok (as, some (.string sb), r)
      cases room with
      | zero => exact Or.inr ⟨[], arg, _, rfl⟩
      | succ room =>
          rw [progargs]
          dsimp only
          by_cases hlong : maxArgLength ≤ arg.val.length
          · rw [if_pos hlong]
            exact Or.inl ⟨_, rfl⟩
          · rw [if_neg hlong]
            have hrest : ¬(args.length ≤ room ∧ ∀ arg ∈ args, arg.val.length < maxArgLength) := by
              rintro ⟨hroom, hargs⟩
              refine h ⟨Nat.succ_le_succ hroom, fun a ha => ?_⟩
              rcases List.mem_cons.mp ha with rfl | ha
              · exact Nat.not_le.mp hlong
              · exact hargs a ha
            rcases ih hrest with ⟨e, he⟩ | ⟨as, sb, r, hr⟩
            · rw [he]
              exact Or.inl ⟨e, rfl⟩
            · rw [hr]
              exact Or.inr ⟨_, sb, r, rfl⟩

theorem matchtoken_string (w : Str) (ts : List Token) (n : ℕ) :
    matchtoken ⟨.string w :: ts, n⟩ = .ok (w, ⟨ts, n⟩) := rfl

/-- There is no further string on a line whose words have been read. -/
theorem matchtoken_rest (lines : List (Option Item)) (n : ℕ) :
    ∃ e, matchtoken ⟨restTokens lines, n⟩ = .error e := by
  cases lines with
  | nil => exact ⟨_, rfl⟩
  | cons _ _ => exact ⟨_, rfl⟩

/-- An entry that fits becomes a row, and the lines behind it are left. -/
theorem entry_ok (sys : System) {w : Str} {ws : List Str} (h : Fits (w :: ws))
    (lines : List (Option Item)) (n : ℕ) :
    ∃ row n', entry sys w ⟨ws.map .string ++ restTokens lines, n⟩ =
      .ok (row, ⟨fileTokens lines, n'⟩) ∧ IsRow row (w :: ws) := by
  match ws, h with
  | conclass :: conprog :: args, ⟨hname, hclass, hroom, hargs⟩ =>
    obtain ⟨tk, n', hrun, hstop⟩ := progargs_ok hroom hargs lines n
    simp only [entry, List.map_cons, List.cons_append, matchtoken_string,
      dif_neg (Nat.not_le.mpr hname), dif_neg (Nat.not_le.mpr hclass)]
    split
    · next h => exact absurd (hrun.symm.trans h) (by simp)
    · next h =>
      cases hrun.symm.trans h
      exact absurd rfl (hstop _)
    · next h =>
      cases hrun.symm.trans h
      exact ⟨_, n', rfl, rfl, rfl, freshUser_str _⟩

/-- An entry that does not fit ends the daemon. -/
theorem entry_error (sys : System) {w : Str} {ws : List Str} (h : ¬Fits (w :: ws))
    (lines : List (Option Item)) (n : ℕ) :
    ∃ e, entry sys w ⟨ws.map .string ++ restTokens lines, n⟩ = .error e := by
  match ws with
  | [] =>
    obtain ⟨e, he⟩ := matchtoken_rest lines n
    exact ⟨e, by simp only [entry, List.map_nil, List.nil_append, he]⟩
  | [conclass] =>
    obtain ⟨e, he⟩ := matchtoken_rest lines n
    exact ⟨e, by simp only [entry, List.map_cons, List.map_nil, List.cons_append, List.nil_append,
      matchtoken_string, he]⟩
  | conclass :: conprog :: args =>
    simp only [entry, List.map_cons, List.cons_append, matchtoken_string]
    by_cases hname : maxConnectionName ≤ w.val.length
    · rw [dif_pos hname]
      exact ⟨_, rfl⟩
    rw [dif_neg hname]
    by_cases hclass : maxClassName ≤ conclass.val.length
    · rw [dif_pos hclass]
      exact ⟨_, rfl⟩
    rw [dif_neg hclass]
    have hargs : ¬(args.length ≤ maxNumberArgs ∧ ∀ arg ∈ args, arg.val.length < maxArgLength) :=
      fun hargs => h ⟨Nat.not_le.mp hname, Nat.not_le.mp hclass, hargs⟩
    have hbad := progargs_bad hargs (restTokens lines) n
    split
    · exact ⟨_, rfl⟩
    · exact ⟨_, rfl⟩
    · next hstop hok =>
      rcases hbad with ⟨e, he⟩ | ⟨as, sb, r, hr⟩
      · exact absurd (he.symm.trans hok) (by simp)
      · cases hr.symm.trans hok
        exact absurd rfl (hstop _)

/-! ### The table -/

theorem readEntries_eq (sys : System) (host : Option (List Byte)) (r : Reader) :
    readEntries sys host r =
      match makeEntry sys host r with
      | .error e => .error e
      | .ok none => .ok []
      | .ok (some (cdata, host', r')) =>
        match readEntries sys host' r' with
        | .error e => .error e
        | .ok ptbl => .ok (cdata :: ptbl) := by
  rw [readEntries]
  split
  · next h => rw [h]
  · next h => rw [h]
  · next cdata host' r' h =>
    cases hrest : readEntries sys host' r' <;> simp only [h, hrest]

theorem readEntries_congr {sys : System} {host host' : Option (List Byte)} {r r' : Reader}
    (h : makeEntry sys host r = makeEntry sys host' r') :
    readEntries sys host r = readEntries sys host' r' := by
  rw [readEntries_eq, readEntries_eq sys host', h]

/-- What comes of reading these lines in a section of `host`: rows if all
entries fit, and no table if one does not. -/
structure Reads (sys : System) (host : Option (List Byte)) (lines : List (Option Item))
    (result : Except Failure (List Condata)) : Prop where
  rows : (∀ words, some (Item.entry words) ∈ lines → Fits words) →
    ∃ rows, result = .ok rows ∧ List.Forall₂ IsRow rows (selected sys.ismyname host lines)
  failure : (∃ words, some (Item.entry words) ∈ lines ∧ ¬Fits words) → ∃ e, result = .error e

theorem reads_nil (sys : System) (host : Option (List Byte)) (n : ℕ) :
    Reads sys host [] (readEntries sys host ⟨[], n⟩) := by
  have hrun : readEntries sys host ⟨[], n⟩ = .ok [] := by
    rw [readEntries_eq, makeEntry_eof]
  refine ⟨fun _ => ⟨[], hrun, .nil⟩, ?_⟩
  rintro ⟨words, hmem, -⟩
  exact absurd hmem List.not_mem_nil

section Line

variable {sys : System} {lines : List (Option Item)}
  (ih : ∀ host n, Reads sys host lines (readEntries sys host ⟨fileTokens lines, n⟩))

include ih

/-- The newline behind a line is skipped. -/
theorem reads_rest (host : Option (List Byte)) (n : ℕ) :
    Reads sys host lines (readEntries sys host ⟨restTokens lines, n⟩) := by
  cases lines with
  | nil => exact ih host n
  | cons line lines =>
      have hskip : readEntries sys host ⟨restTokens (line :: lines), n⟩ =
          readEntries sys host ⟨fileTokens (line :: lines), n + 1⟩ :=
        readEntries_congr (makeEntry_newline sys host _ n)
      rw [hskip]
      exact ih host (n + 1)

theorem reads_none (host : Option (List Byte)) (n : ℕ) :
    Reads sys host (none :: lines) (readEntries sys host ⟨fileTokens (none :: lines), n⟩) := by
  rw [fileTokens_cons]
  have hrest := reads_rest ih host n
  constructor
  · intro hfit
    exact hrest.rows fun words hw => hfit words (List.mem_cons_of_mem _ hw)
  · rintro ⟨words, hmem, hmis⟩
    exact hrest.failure ⟨words, (List.mem_cons.mp hmem).resolve_left (by simp), hmis⟩

theorem reads_host (name : Str) (host : Option (List Byte)) (n : ℕ) :
    Reads sys host (some (.host name) :: lines)
      (readEntries sys host ⟨fileTokens (some (.host name) :: lines), n⟩) := by
  have hdrop : (colon name).val.dropLast = name.val := List.dropLast_concat
  have hlast : (colon name).val.getLast? = some 58 := List.getLast?_concat
  have hmake := makeEntry_colon sys host hlast (restTokens lines) n
  rw [hdrop] at hmake
  rw [fileTokens_cons]
  have hrest := reads_rest ih (if name.val = [] then none else some name.val) n
  rw [← readEntries_congr hmake] at hrest
  constructor
  · intro hfit
    exact hrest.rows fun words hw => hfit words (List.mem_cons_of_mem _ hw)
  · rintro ⟨words, hmem, hmis⟩
    exact hrest.failure ⟨words, (List.mem_cons.mp hmem).resolve_left (by simp), hmis⟩

theorem reads_entry {w : Str} (ws : List Str) (hne : w.val ≠ []) (hname : w.val.getLast? ≠ some 58)
    (host : Option (List Byte)) (n : ℕ) :
    Reads sys host (some (.entry (w :: ws)) :: lines)
      (readEntries sys host ⟨fileTokens (some (.entry (w :: ws)) :: lines), n⟩) := by
  have hmake := makeEntry_entry sys host hne hname (ws.map .string ++ restTokens lines) n
  rw [fileTokens_cons]
  show Reads sys host _
    (readEntries sys host ⟨.string w :: (ws.map .string ++ restTokens lines), n⟩)
  by_cases hfit : Fits (w :: ws)
  · obtain ⟨row, n', hentry, hrow⟩ := entry_ok sys hfit lines n
    rw [hentry] at hmake
    dsimp only at hmake
    have hrest := ih host n'
    -- a misfit can only be further down
    have hmis : (∃ words, some (Item.entry words) ∈ some (Item.entry (w :: ws)) :: lines ∧
        ¬Fits words) → ∃ e, readEntries sys host ⟨fileTokens lines, n'⟩ = .error e := by
      rintro ⟨words, hmem, hmis⟩
      apply hrest.failure
      refine ⟨words, (List.mem_cons.mp hmem).resolve_left ?_, hmis⟩
      rintro h
      cases h
      exact hmis hfit
    by_cases hhost : host.all sys.ismyname = true
    · rw [if_pos hhost] at hmake
      rw [readEntries_eq, hmake]
      dsimp only
      constructor
      · intro hfits
        obtain ⟨rows, hrows, hall⟩ := hrest.rows fun words hw =>
          hfits words (List.mem_cons_of_mem _ hw)
        refine ⟨row :: rows, by rw [hrows], ?_⟩
        rw [selected, if_pos hhost]
        exact .cons hrow hall
      · intro h
        obtain ⟨e, he⟩ := hmis h
        exact ⟨e, by rw [he]⟩
    · rw [if_neg hhost] at hmake
      rw [readEntries_congr hmake]
      constructor
      · intro hfits
        obtain ⟨rows, hrows, hall⟩ := hrest.rows fun words hw =>
          hfits words (List.mem_cons_of_mem _ hw)
        refine ⟨rows, hrows, ?_⟩
        rwa [selected, if_neg hhost]
      · exact hmis
  · obtain ⟨e, he⟩ := entry_error sys hfit lines n
    rw [he] at hmake
    have hrun : readEntries sys host ⟨.string w :: (ws.map .string ++ restTokens lines), n⟩ =
        .error e := by rw [readEntries_eq, hmake]
    constructor
    · intro hfits
      exact absurd (hfits _ List.mem_cons_self) hfit
    · exact fun _ => ⟨e, hrun⟩

theorem reads_line {line : Option Item} {bs : List Byte} (h : Line line bs)
    (host : Option (List Byte)) (n : ℕ) :
    Reads sys host (line :: lines) (readEntries sys host ⟨fileTokens (line :: lines), n⟩) := by
  cases h with
  | empty | comment => exact reads_none ih host n
  | host => exact reads_host ih _ host n
  | @entry w ws _ _ _ _ hws hname =>
      have hne : w.val ≠ [] := by
        cases hws with
        | single hw | cons hw => exact hw.ne_nil
      exact reads_entry ih ws hne hname host n

end Line

theorem Layout.reads {lines : List (Option Item)} {file : List Byte} (h : Layout lines file)
    (sys : System) (host : Option (List Byte)) (n : ℕ) :
    Reads sys host lines (readEntries sys host ⟨fileTokens lines, n⟩) := by
  induction h generalizing host n with
  | last h => exact reads_line (fun host n => reads_nil sys host n) h host n
  | cons h _ ih => exact reads_line ih h host n

theorem Layout.rows {lines : List (Option Item)} {file : List Byte} (h : Layout lines file)
    (sys : System) (hfits : ∀ words, some (Item.entry words) ∈ lines → Fits words)
    (hle : (selected sys.ismyname none lines).length ≤ maxConnections) :
    ∃ rows, readConfigurationFile sys (some file) = .ok rows ∧
      List.Forall₂ IsRow rows (selected sys.ismyname none lines) := by
  obtain ⟨rows, hrows, hall⟩ := (h.reads sys none 1).rows hfits
  refine ⟨rows, ?_, hall⟩
  unfold readConfigurationFile
  dsimp only
  rw [h.yylex_eq, hrows]
  dsimp only
  rw [hall.length_eq]
  exact if_neg (Nat.not_lt.mpr hle)

theorem Layout.misfit {lines : List (Option Item)} {file : List Byte} (h : Layout lines file)
    (sys : System) (hmis : ∃ words, some (Item.entry words) ∈ lines ∧ ¬Fits words) :
    ∃ e, readConfigurationFile sys (some file) = .error e := by
  obtain ⟨e, he⟩ := (h.reads sys none 1).failure hmis
  refine ⟨e, ?_⟩
  unfold readConfigurationFile
  dsimp only
  rw [h.yylex_eq, he]

theorem Layout.tooMany {lines : List (Option Item)} {file : List Byte} (h : Layout lines file)
    (sys : System) (hfits : ∀ words, some (Item.entry words) ∈ lines → Fits words)
    (hgt : maxConnections < (selected sys.ismyname none lines).length) :
    readConfigurationFile sys (some file) = .error .tooMany := by
  obtain ⟨rows, hrows, hall⟩ := (h.reads sys none 1).rows hfits
  unfold readConfigurationFile
  dsimp only
  rw [h.yylex_eq, hrows]
  dsimp only
  rw [hall.length_eq]
  exact if_pos hgt

/-- **The configuration reader.** From every layout of lines whose entries fit,
`readConfigurationFile` returns a row for each entry in no section or in one of
this host, in the order of the file; an entry that does not fit and more than
`MAXCONNECTIONS` rows end the daemon. -/
theorem readConfigurationFile_layout {lines : List (Option Item)} {file : List Byte}
    (h : Layout lines file) (sys : System) :
    ((∀ words, some (Item.entry words) ∈ lines → Fits words) →
      (selected sys.ismyname none lines).length ≤ maxConnections →
      ∃ rows, readConfigurationFile sys (some file) = .ok rows ∧
        List.Forall₂ IsRow rows (selected sys.ismyname none lines)) ∧
    ((∃ words, some (Item.entry words) ∈ lines ∧ ¬Fits words) ∨
        maxConnections < (selected sys.ismyname none lines).length →
      ∃ e, readConfigurationFile sys (some file) = .error e) := by
  refine ⟨h.rows sys, ?_⟩
  rintro (hmis | hgt)
  · exact h.misfit sys hmis
  · by_cases hfits : ∀ words, some (Item.entry words) ∈ lines → Fits words
    · exact ⟨_, h.tooMany sys hfits hgt⟩
    · obtain ⟨words, hwords⟩ := not_forall.mp hfits
      exact h.misfit sys ⟨words, not_forall.mp hwords |>.1, not_forall.mp hwords |>.2⟩

/-- The first line of this file is a row, the section of another host is not. -/
theorem readConfigurationFile_layout_argo :
    ∃ rows, readConfigurationFile ⟨fun _ => false, fun _ => CharArray.zero _, fun _ => 0⟩
        (some (text "argo mips\t/bin/cat -u # free\nhelios:\nbrig mips /bin/cat")) = .ok rows ∧
      List.Forall₂ IsRow rows
        [[⟨text "argo", by decide⟩, ⟨text "mips", by decide⟩, ⟨text "/bin/cat", by decide⟩,
          ⟨text "-u", by decide⟩]] := by
  have hargo : Line (some (.entry [⟨text "argo", by decide⟩, ⟨text "mips", by decide⟩,
      ⟨text "/bin/cat", by decide⟩, ⟨text "-u", by decide⟩]))
      (text "argo mips\t/bin/cat -u # free") :=
    .entry .nil
      (.cons (by decide) (.blank (Or.inr rfl))
        (.cons (by decide) (.blank (Or.inl rfl))
          (.cons (by decide) (.blank (Or.inr rfl)) (.single (by decide)))))
      (by decide) (.comment (t := text " free") (.blank (Or.inr rfl)) (by decide))
  have hhost : Line (some (.host ⟨text "helios", by decide⟩)) (text "helios:") :=
    .host .nil (by decide) .nil
  have hbrig : Line (some (.entry [⟨text "brig", by decide⟩, ⟨text "mips", by decide⟩,
      ⟨text "/bin/cat", by decide⟩])) (text "brig mips /bin/cat") :=
    .entry .nil
      (.cons (by decide) (.blank (Or.inr rfl))
        (.cons (by decide) (.blank (Or.inr rfl)) (.single (by decide))))
      (by decide) .nil
  refine (readConfigurationFile_layout (.cons hargo (.cons hhost (.last hbrig))) _).1 ?_ ?_
  · intro words hmem
    simp only [List.mem_cons, Option.some.injEq, Item.entry.injEq, reduceCtorEq, false_or,
      List.not_mem_nil, or_false] at hmem
    rcases hmem with rfl | rfl
    · exact ⟨by decide, by decide, by decide, by decide⟩
    · exact ⟨by decide, by decide, by decide, by decide⟩
  · decide

end XinuConsole.Config
