import XinuConsole.Config.Continuation

/-!
Writing a configuration file for a table.

There is no such program in the repository; the text of a table is a normal form of
the files that are read to it. Every word has a blank behind it, as a single backslash
at the end of a line would continue it.
-/

namespace XinuConsole.Config

open Lib

/-- The words of a row, as a line of the file has them. -/
def Stored.words (row : Stored) : List (List Byte) :=
  row.conname :: row.conclass :: row.conprog :: row.progargs

def Stored.line (row : Stored) : List Byte := row.words.flatMap (· ++ [32]) ++ [10]

/-- The file of a table. -/
def printTable (rows : List Condata) : List Byte := (rows.map stored).flatMap Stored.line

/-! ### What the reader can have stored -/

/-- A string that the scanner makes of a text without a NUL. -/
structure Scanned (w : Str) : Prop where
  ne_nil : w.val ≠ []
  isC : ∀ b ∈ w.val, isC b = true
  head_ne : w.val.head? ≠ some 35

/-- Every token was matched somewhere in the file. -/
theorem exists_lexeme_of_mem {file : List Byte} {tk : Token} (h : tk ∈ yylex file) :
    ∃ front m rest, file = front ++ (m ++ rest) ∧ Lexeme m rest (some tk) := by
  induction hlen : file.length using Nat.strong_induction_on generalizing file with
  | h len ih =>
      by_cases hne : file = []
      · rw [hne, yylex_nil] at h
        exact absurd h List.not_mem_nil
      obtain ⟨m, rest, tk', rfl, hm⟩ := exists_lexeme hne
      rw [hm.yylex, List.mem_append, Option.mem_toList] at h
      rcases h with rfl | h
      · exact ⟨[], m, rest, rfl, hm⟩
      · have hshorter : rest.length < len := by
          have := List.length_pos_iff.mpr hm.ne_nil
          rw [List.length_append] at hlen
          omega
        obtain ⟨front, m', rest', hrest, hm'⟩ := ih rest.length hshorter h rfl
        exact ⟨m ++ front, m', rest', by rw [hrest, List.append_assoc], hm'⟩

theorem scanned_of_mem {file : List Byte} (hnul : (0 : Byte) ∉ file) {w : Str}
    (h : .string w ∈ yylex file) : Scanned w := by
  obtain ⟨front, m, rest, rfl, hm⟩ := exists_lexeme_of_mem h
  cases hm with
  | text hne hisC hhead =>
      have hval : (newsb m).val = m := by
        apply cstr_of_not_mem
        exact fun hm => hnul (List.mem_append_right _ (List.mem_append_left _ hm))
      exact ⟨hval.symm ▸ hne, hval.symm ▸ hisC, hval.symm ▸ hhead⟩

/-- An entry whose strings came from the scanner and passed the checks of `makeEntry`. -/
structure Entry.Checked (e : Entry) : Prop where
  conname : Scanned e.conname ∧ e.conname.val.length < maxConnectionName
  colon : e.conname.val.getLast? ≠ some 58
  conclass : Scanned e.conclass ∧ e.conclass.val.length < maxClassName
  conprog : Scanned e.conprog
  args : ∀ arg ∈ e.args, Scanned arg ∧ arg.val.length < maxArgLength
  room : e.args.length ≤ maxNumberArgs

/-- The same for the part of an entry that was read. -/
def Phase.Checked : Phase → Prop
  | .top => True
  | .named conname => Scanned conname ∧ conname.val.getLast? ≠ some 58
  | .classed conname conclass =>
      (Scanned conname ∧ conname.val.getLast? ≠ some 58) ∧ Scanned conclass
  | .args e => e.Checked

theorem checked_complete {ismyname : List Byte → Bool} {host : Option (List Byte)} {e : Entry}
    (h : e.Checked) : ∀ e' ∈ complete ismyname host e, e'.Checked := by
  intro e' he'
  rw [complete] at he'
  split at he'
  · exact List.mem_singleton.mp he' ▸ h
  · exact absurd he' List.not_mem_nil

theorem checked_step {ismyname : List Byte → Bool} {pl pl' : Place} {tk : Token} {es : List Entry}
    (hpl : pl.phase.Checked) (htk : ∀ w, tk = .string w → Scanned w)
    (h : pl.step ismyname tk = some (pl', es)) :
    pl'.phase.Checked ∧ ∀ e ∈ es, e.Checked := by
  have hnone : ∀ e ∈ ([] : List Entry), e.Checked := fun _ he => absurd he List.not_mem_nil
  obtain ⟨phase, host⟩ := pl
  cases tk with
  | newline =>
      cases phase with
      | top =>
          cases h
          exact ⟨trivial, hnone⟩
      | named | classed => exact absurd h (by simp [Place.step])
      | args e =>
          cases h
          exact ⟨trivial, checked_complete hpl⟩
  | string w =>
      have hw := htk w rfl
      cases phase with
      | top =>
          simp only [Place.step] at h
          split at h
          · exact absurd h (by simp)
          next c hc =>
          split at h
          · cases h
            exact ⟨trivial, hnone⟩
          next hcolon =>
          cases h
          refine ⟨⟨hw, fun h58 => hcolon ?_⟩, hnone⟩
          exact Option.some.inj (hc.symm.trans h58)
      | named conname =>
          cases h
          exact ⟨⟨hpl, hw⟩, hnone⟩
      | classed conname conclass =>
          simp only [Place.step] at h
          split at h
          · next hfits =>
              cases h
              exact ⟨⟨⟨hpl.1.1, hfits.1⟩, hpl.1.2, ⟨hpl.2, hfits.2⟩, hw,
                fun _ harg => absurd harg List.not_mem_nil, Nat.zero_le _⟩, hnone⟩
          · exact absurd h (by simp)
      | args e =>
          simp only [Place.step] at h
          split at h
          · next hfits =>
              cases h
              refine ⟨{ hpl with args := fun arg harg => ?_, room := ?_ }, hnone⟩
              · rcases List.mem_append.mp harg with harg | harg
                · exact hpl.args arg harg
                · exact List.mem_singleton.mp harg ▸ ⟨hw, hfits.2⟩
              · rw [List.length_append]
                exact hfits.1
          · exact absurd h (by simp)

/-- Every entry that comes out of a text without a NUL is of that kind. -/
theorem checked_of_entries {ismyname : List Byte → Bool} {file : List Byte} (hnul : (0 : Byte) ∉ file)
    {es : List Entry} (h : entries ismyname .start (yylex file) = some es) :
    ∀ e ∈ es, e.Checked := by
  refine Transducer.output_forall (I := fun pl => pl.phase.Checked)
    (P := fun tk => ∀ w, tk = .string w → Scanned w) (fun _ _ _ _ => checked_step) ?_ trivial
    (fun tk htk w hw => scanned_of_mem hnul (by rwa [← hw])) h
  rintro ⟨phase, host⟩ es hphase hes
  cases phase with
  | top =>
      cases hes
      exact nofun
  | named | classed => exact absurd hes (by simp [byToken, Place.finish])
  | args e =>
      cases hes
      exact checked_complete hphase

/-! ### Reading a text that was written -/

theorem yylex_scanned {w : Str} (hw : Scanned w) (rest : List Byte) :
    yylex (w.val ++ 32 :: rest) = .string w :: yylex rest := by
  have hnewsb : newsb w.val = w := Subtype.ext (cstr_of_not_mem w.property)
  rw [yylex_text hw.ne_nil hw.isC hw.head_ne (fun _ => by simp) (by
    intro b hb
    obtain rfl : 32 = b := Option.some.inj hb
    rfl), hnewsb, yylex_blank (.inr rfl)]

theorem yylex_words {ws : List Str} (hws : ∀ w ∈ ws, Scanned w) (rest : List Byte) :
    yylex ((ws.map Subtype.val).flatMap (· ++ [32]) ++ rest) = ws.map .string ++ yylex rest := by
  induction ws with
  | nil => rfl
  | cons w ws ih =>
      rw [List.map_cons, List.flatMap_cons, List.append_assoc, List.append_assoc,
        List.singleton_append, yylex_scanned (hws w List.mem_cons_self),
        ih fun w hw => hws w (List.mem_cons_of_mem _ hw)]
      rfl

namespace Entry.Checked

variable {e : Entry} (h : e.Checked)

include h

theorem yylex_line (rest : List Byte) : yylex (e.stored.line ++ rest) =
    .string e.conname :: .string e.conclass :: .string e.conprog ::
      (e.args.map .string ++ .newline :: yylex rest) := by
  have hwords : e.stored.words = (e.conname :: e.conclass :: e.conprog :: e.args).map Subtype.val := rfl
  rw [Stored.line, hwords, List.append_assoc, yylex_words, List.singleton_append, yylex_newline]
  · rfl
  · simp only [List.forall_mem_cons]
    exact ⟨h.conname.1, h.conclass.1, h.conprog, fun arg harg => (h.args arg harg).1⟩

/-- The line of an entry in front of a text is read to that entry. -/
theorem entries_line {ismyname : List Byte → Bool} (rest : List Byte) :
    entries ismyname .start (yylex (e.stored.line ++ rest)) =
      (entries ismyname .start (yylex rest)).map (e :: ·) := by
  have hstops : Stops (.newline :: yylex rest) := fun _ => by simp
  have hargs : entries ismyname ⟨.args ⟨e.conname, e.conclass, e.conprog, []⟩, none⟩
      (e.args.map .string ++ .newline :: yylex rest) = _ :=
    entries_args_line e.args hstops (Nat.zero_le _)
  rw [if_pos] at hargs
  · rw [h.yylex_line, Place.start, entries_top_name h.conname.1.ne_nil h.colon, entries_named,
      entries_classed h.conname.2 h.conclass.2, hargs, entries_top_newline, complete_of_mine rfl,
      List.nil_append]
    rfl
  · refine ⟨?_, fun arg harg => (h.args arg harg).2⟩
    rw [List.length_nil, Nat.zero_add]
    exact h.room

end Entry.Checked

theorem entries_lines {ismyname : List Byte → Bool} {es : List Entry} (hes : ∀ e ∈ es, e.Checked) :
    entries ismyname .start (yylex ((es.map Entry.stored).flatMap Stored.line)) = some es := by
  induction es with
  | nil =>
      show entries ismyname .start (yylex []) = _
      rw [yylex_nil]
      rfl
  | cons e es ih =>
      rw [List.map_cons, List.flatMap_cons, (hes e List.mem_cons_self).entries_line,
        ih fun e he => hes e (List.mem_cons_of_mem _ he)]
      rfl

/-- **Every table has a file.** The text written for a table that was read from a file
without a NUL is read to the same table, on every host, and is what is written for
that table again. -/
theorem printTable_read {sys : System} (sys' : System) {file : List Byte} (hnul : (0 : Byte) ∉ file)
    {rows : List Condata} (h : readConfigurationFile sys (some file) = .ok rows) :
    ∃ rows', readConfigurationFile sys' (some (printTable rows)) = .ok rows' ∧
      rows'.map stored = rows.map stored ∧ printTable rows' = printTable rows := by
  obtain ⟨es, hes, hstored, hfew⟩ := (readConfigurationFile_entries sys file _).mp ⟨rows, h, rfl⟩
  have hread : entries sys'.ismyname .start (yylex (printTable rows)) = some es := by
    rw [printTable, ← hstored]
    exact entries_lines (checked_of_entries hnul hes)
  obtain ⟨rows', hrows', hstored'⟩ :=
    (readConfigurationFile_entries sys' (printTable rows) _).mpr ⟨es, hread, hstored, hfew⟩
  exact ⟨rows', hrows', hstored', by rw [printTable, hstored', printTable]⟩

/-- A file without a newline at its end, and with a tab. -/
theorem printTable_read_argo : ∃ rows rows',
    readConfigurationFile thisHost (some (text "argo \tmips /bin/cat")) = .ok rows ∧
      readConfigurationFile thisHost (some (printTable rows)) = .ok rows' ∧
      rows'.map stored = rows.map stored := by
  have hwords : Words [newsb (text "argo"), newsb (text "mips"), newsb (text "/bin/cat")]
      (text "argo \tmips /bin/cat") :=
    .cons (w := newsb (text "argo")) (by decide)
      (.append (.blank (Or.inr rfl)) (.blank (Or.inl rfl))) mips_words
  obtain ⟨rows, hrows⟩ := hwords.read rfl (by decide) ⟨by decide, by decide, by decide, by decide⟩
  obtain ⟨rows', hrows', hstored, -⟩ := printTable_read thisHost (by decide) hrows
  exact ⟨rows, rows', hrows, hrows', hstored⟩

end XinuConsole.Config
