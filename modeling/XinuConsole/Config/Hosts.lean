import XinuConsole.Config.Layout

/-!
The sections of the configuration file and the names of hosts: `ismyname` in
`src/support.c`.

`ismyname` compares as many bytes as the other name has, so every host whose
canonical name is the beginning of this machine's counts as this machine.
-/

namespace XinuConsole.Config

open Lib

/-- This machine: what `gethostbyname` makes of a name, the name that
`gethostname` answers, and the canonical name of that. -/
structure Host where
  resolve : List Byte → Option (List Byte)
  myname : List Byte
  realname : List Byte
  resolves : resolve myname = some realname
  realname_le : (cstr realname).length ≤ 255

namespace Host

variable (m : Host)

/-- The static array that the first call of `ismyname` fills. -/
def myrealname : CharArray 256 :=
  ((CharArray.zero 256).strncpy ((m.resolve m.myname).getD []) 255 (by decide)).set 255 0

def ismyname (name : List Byte) : Bool :=
  match m.resolve name with
  | none => false
  | some h_name => strnequ m.myrealname.val h_name (cstr h_name).length

/-- The name resolves to the same canonical name as this machine's. -/
def SameHost (name : List Byte) : Prop := (m.resolve name).map cstr = some (cstr m.realname)

instance (name : List Byte) : Decidable (m.SameHost name) := inferInstanceAs (Decidable (_ = _))

theorem cstr_myrealname : cstr m.myrealname.val = cstr m.realname := by
  rw [myrealname, m.resolves, Option.getD_some]
  have hcut := CharArray.cstr_set_strncpy (CharArray.zero 256) m.realname (show 255 ≤ 256 by decide)
  exact hcut.trans (List.take_of_length_le m.realname_le)

/-- The comparison finds the beginnings of this machine's name. -/
theorem ismyname_iff (name : List Byte) :
    m.ismyname name = true ↔ ∃ h_name, m.resolve name = some h_name ∧
      cstr h_name <+: cstr m.realname := by
  unfold ismyname
  cases m.resolve name with
  | none => simp
  | some h_name =>
      dsimp only
      rw [strnequ_iff, cstr_myrealname, List.take_length, eq_comm, ← List.prefix_iff_eq_take]
      simp

end Host

/-- The entries of the file with the host of the section they stand in; the
first ones stand in none. -/
def sections (user : ℕ → CharArray maxUserName) (contime : ℕ → ℤ) (defaulthost : Option (List Byte))
    (r : Reader) : Except Failure (List (Option (List Byte) × Condata)) :=
  match _hmake : makeEntry ⟨fun _ => true, user, contime⟩ defaulthost r with
  | .error e => .error e
  | .ok none => .ok []
  | .ok (some (cdata, defaulthost, r)) =>
    match sections user contime defaulthost r with
    | .error e => .error e
    | .ok entries => .ok ((defaulthost, cdata) :: entries)
termination_by r.tokens.length
decreasing_by exact makeEntry_length _hmake

/-! ### What the reader leaves out -/

theorem makeEntry_outside (sys : System) (host : Option (List Byte)) {tv : Str} (hnil : tv.val = [])
    (ts : List Token) (n : ℕ) : makeEntry sys host ⟨.string tv :: ts, n⟩ = .error .outside := by
  rw [makeEntry]
  split
  · next h => exact absurd (Prod.mk.inj h).1 (by simp)
  · next tv' r' h =>
    obtain ⟨h₁, rfl⟩ := Prod.mk.inj h
    obtain rfl : tv = tv' := Option.some.inj h₁
    split
    · rfl
    · next c hc => exact absurd hc (by simp [hnil])

/-- The next entry of the file is returned, or left out for its section. -/
theorem makeEntry_all (sys : System) (host : Option (List Byte)) (ts : List Token) (n : ℕ) :
    makeEntry sys host ⟨ts, n⟩ =
      match makeEntry ⟨fun _ => true, sys.user, sys.contime⟩ host ⟨ts, n⟩ with
      | .error e => .error e
      | .ok none => .ok none
      | .ok (some (cdata, host', r')) =>
          if host'.all sys.ismyname then .ok (some (cdata, host', r')) else makeEntry sys host' r' := by
  induction ts generalizing host n with
  | nil => rw [makeEntry_eof, makeEntry_eof]
  | cons tok ts ih =>
      cases tok with
      | newline =>
          rw [makeEntry_newline, makeEntry_newline]
          exact ih host (n + 1)
      | string tv =>
          by_cases hnil : tv.val = []
          · rw [makeEntry_outside _ _ hnil, makeEntry_outside _ _ hnil]
          · by_cases hcolon : tv.val.getLast? = some 58
            · rw [makeEntry_colon _ _ hcolon, makeEntry_colon _ _ hcolon]
              exact ih _ n
            · rw [makeEntry_entry _ _ hnil hcolon, makeEntry_entry _ _ hnil hcolon]
              have hall : host.all (fun _ => true) = true := by cases host <;> rfl
              have hsame : entry ⟨fun _ => true, sys.user, sys.contime⟩ tv ⟨ts, n⟩ =
                  entry sys tv ⟨ts, n⟩ := rfl
              rw [hsame]
              cases entry sys tv ⟨ts, n⟩ with
              | error e => rfl
              | ok row =>
                  dsimp only
                  rw [if_pos hall]

theorem sections_eq (user : ℕ → CharArray maxUserName) (contime : ℕ → ℤ)
    (host : Option (List Byte)) (r : Reader) :
    sections user contime host r =
      match makeEntry ⟨fun _ => true, user, contime⟩ host r with
      | .error e => .error e
      | .ok none => .ok []
      | .ok (some (cdata, host', r')) =>
        match sections user contime host' r' with
        | .error e => .error e
        | .ok entries => .ok ((host', cdata) :: entries) := by
  rw [sections]
  split
  · next h => rw [h]
  · next h => rw [h]
  · next cdata host' r' h =>
    cases hrest : sections user contime host' r' <;> simp only [h, hrest]

/-- The entries of the sections of this host. -/
def selectedRows (ismyname : List Byte → Bool) (entries : List (Option (List Byte) × Condata)) :
    List Condata :=
  (entries.filter fun e => e.1.all ismyname).map Prod.snd

/-- The rows of the table are the entries of the selected sections, and the
reader fails on the same files. -/
theorem readEntries_eq_sections (sys : System) (host : Option (List Byte)) (r : Reader) :
    readEntries sys host r =
      (sections sys.user sys.contime host r).map (selectedRows sys.ismyname) := by
  induction hlen : r.tokens.length using Nat.strong_induction_on generalizing host r with
  | h len ih =>
      rw [readEntries_eq, makeEntry_all, sections_eq]
      cases hall : makeEntry ⟨fun _ => true, sys.user, sys.contime⟩ host r with
      | error e => rfl
      | ok next =>
          cases next with
          | none => rfl
          | some next =>
              obtain ⟨cdata, host', r'⟩ := next
              have hrest := ih r'.tokens.length (hlen ▸ makeEntry_length hall) host' r' rfl
              dsimp only
              by_cases hmine : host'.all sys.ismyname = true
              · rw [if_pos hmine]
                dsimp only
                rw [hrest]
                cases sections sys.user sys.contime host' r' with
                | error e => rfl
                | ok entries => simp [Except.map, selectedRows, hmine]
              · rw [if_neg hmine, ← readEntries_eq, hrest]
                cases sections sys.user sys.contime host' r' with
                | error e => rfl
                | ok entries => simp [Except.map, selectedRows, hmine]

theorem readConfigurationFile_sections {sys : System} {f : List Byte} {rows : List Condata}
    (h : readConfigurationFile sys (some f) = .ok rows) :
    ∃ entries, sections sys.user sys.contime none ⟨yylex f, 1⟩ = .ok entries ∧
      rows = selectedRows sys.ismyname entries := by
  simp only [readConfigurationFile, readEntries_eq_sections] at h
  cases hsections : sections sys.user sys.contime none ⟨yylex f, 1⟩ with
  | error e =>
      rw [hsections] at h
      exact absurd h (by simp [Except.map])
  | ok entries =>
      rw [hsections] at h
      simp only [Except.map] at h
      split at h
      · exact absurd h (by simp)
      · exact ⟨entries, rfl, (Except.ok.inj h).symm⟩

/-- Two selections of which one is stricter are the same if they are as long. -/
theorem selectedRows_eq_iff {p q : List Byte → Bool} (hpq : ∀ name, q name = true → p name = true)
    (entries : List (Option (List Byte) × Condata)) :
    selectedRows p entries = selectedRows q entries ↔
      ∀ e ∈ entries, ∀ name ∈ e.1, p name = true → q name = true := by
  have hall : ∀ host : Option (List Byte), host.all q = true → host.all p = true := by
    intro host h
    cases host with
    | none => rfl
    | some name => exact hpq name h
  constructor
  · intro heq e he name hname hp
    have hlen := congrArg List.length heq
    simp only [selectedRows, List.length_map] at hlen
    have hsub : (entries.filter fun e => e.1.all q).Sublist (entries.filter fun e => e.1.all p) :=
      List.monotone_filter_right entries fun e he => hall e.1 he
    have hsame := hsub.eq_of_length hlen.symm
    have hselected : e.1.all p = true := by
      rw [Option.mem_def.mp hname]
      exact hp
    have hmem : e ∈ entries.filter fun e => e.1.all p := List.mem_filter.mpr ⟨he, hselected⟩
    rw [← hsame, List.mem_filter, Option.mem_def.mp hname] at hmem
    exact hmem.2
  · intro himp
    rw [selectedRows, selectedRows]
    congr 1
    refine List.filter_congr fun e he => ?_
    cases hhost : e.1 with
    | none => rfl
    | some name =>
        exact Bool.eq_iff_iff.mpr ⟨himp e he name hhost, hpq name⟩

/-- The reader on this machine. -/
def Host.system (m : Host) (user : ℕ → CharArray maxUserName) (contime : ℕ → ℤ) : System :=
  ⟨m.ismyname, user, contime⟩

/-- **The table has the entries of this machine's sections**, and of no others,
exactly where no section with an entry is for a host whose canonical name is a
proper beginning of this machine's. -/
theorem host_sections_iff (m : Host) (user : ℕ → CharArray maxUserName) (contime : ℕ → ℤ)
    {f : List Byte} {rows : List Condata}
    (h : readConfigurationFile (m.system user contime) (some f) = .ok rows) :
    ∃ entries, sections user contime none ⟨yylex f, 1⟩ = .ok entries ∧
      (rows = selectedRows (fun name => decide (m.SameHost name)) entries ↔
        ∀ e ∈ entries, ∀ name ∈ e.1, ∀ h_name, m.resolve name = some h_name →
          cstr h_name <+: cstr m.realname → cstr h_name = cstr m.realname) := by
  obtain ⟨entries, hentries, rfl⟩ := readConfigurationFile_sections h
  refine ⟨entries, hentries, ?_⟩
  have hstrict : ∀ name, decide (m.SameHost name) = true → m.ismyname name = true := by
    intro name hsame
    obtain ⟨h_name, hresolve, hname⟩ := Option.map_eq_some_iff.mp (of_decide_eq_true hsame)
    exact (m.ismyname_iff name).mpr ⟨h_name, hresolve, hname ▸ List.prefix_rfl⟩
  refine (selectedRows_eq_iff hstrict entries).trans ?_
  refine forall₂_congr fun e _ => forall₂_congr fun name _ => ?_
  rw [m.ismyname_iff, decide_eq_true_eq, Host.SameHost]
  constructor
  · intro himp h_name hresolve hpre
    have hsame := himp ⟨h_name, hresolve, hpre⟩
    rw [hresolve] at hsame
    exact Option.some.inj hsame
  · rintro himp ⟨h_name, hresolve, hpre⟩
    rw [hresolve]
    exact congrArg some (himp h_name hresolve hpre)

/-- Names that are canonical already. -/
def plainHost (name : List Byte) (h : (cstr name).length ≤ 255) : Host :=
  ⟨some, name, name, rfl, h⟩

def argoWords : List Str := [newsb (text "argo"), newsb (text "mips"), newsb (text "/bin/cat")]

/-- A file with one entry, in the section of `lab1`. -/
theorem labFile_layout : Layout [some (.host ⟨text "lab1", by decide⟩), some (.entry argoWords)]
    (text "lab1:\nargo mips /bin/cat") := by
  have hhost : Line (some (.host ⟨text "lab1", by decide⟩)) (text "lab1:") :=
    .host .nil (by decide) .nil
  have hentry : Line (some (.entry argoWords)) (text "argo mips /bin/cat") :=
    .entry .nil (.cons (w := newsb (text "argo")) (by decide) (.blank (Or.inr rfl))
      (.cons (w := newsb (text "mips")) (by decide) (.blank (Or.inr rfl))
        (.single (w := newsb (text "/bin/cat")) (by decide)))) (by decide) .nil
  exact .cons hhost (.last hentry)

/-- Reading the file, where these hosts are this machine. -/
theorem labFile_read (ismyname : List Byte → Bool) :
    ∃ rows entries, readConfigurationFile ⟨ismyname, fun _ => CharArray.zero _, fun _ => 0⟩
        (some (text "lab1:\nargo mips /bin/cat")) = .ok rows ∧
      sections (fun _ => CharArray.zero _) (fun _ => 0) none
        ⟨yylex (text "lab1:\nargo mips /bin/cat"), 1⟩ = .ok entries ∧
      rows = selectedRows ismyname entries ∧
      rows.length = if ismyname (text "lab1") then 1 else 0 := by
  have hselected : selected ismyname none [some (.host ⟨text "lab1", by decide⟩),
      some (.entry argoWords)] = if ismyname (text "lab1") then [argoWords] else [] := rfl
  obtain ⟨rows, hread, hall⟩ := labFile_layout.rows
    ⟨ismyname, fun _ => CharArray.zero _, fun _ => 0⟩ (by
      intro words hmem
      simp only [List.mem_cons, Option.some.injEq, Item.entry.injEq, reduceCtorEq, false_or,
        List.not_mem_nil, or_false] at hmem
      rw [hmem]
      exact ⟨by decide, by decide, by decide, by decide⟩) (by
      rw [hselected]
      split <;> decide)
  obtain ⟨entries, hentries, hrows⟩ := readConfigurationFile_sections hread
  refine ⟨rows, entries, hread, hentries, hrows, ?_⟩
  rw [hall.length_eq, hselected]
  split <;> rfl

/-- A machine whose resolver knows no name but its own. -/
def lonelyHost : Host :=
  ⟨fun name => if name = text "lab1" then some (text "lab1") else none, text "lab1", text "lab1",
    by decide, by decide⟩

theorem host_sections_lonelyHost :
    ∃ rows entries,
      readConfigurationFile (lonelyHost.system (fun _ => CharArray.zero _) fun _ => 0)
        (some (text "lab1:\nargo mips /bin/cat")) = .ok rows ∧
      sections (fun _ => CharArray.zero _) (fun _ => 0) none
        ⟨yylex (text "lab1:\nargo mips /bin/cat"), 1⟩ = .ok entries ∧
      rows = selectedRows (fun name => decide (lonelyHost.SameHost name)) entries := by
  obtain ⟨rows, -, hread, -⟩ := labFile_read lonelyHost.ismyname
  obtain ⟨entries, hentries, hiff⟩ := host_sections_iff lonelyHost _ _ hread
  refine ⟨rows, entries, hread, hentries, hiff.mpr ?_⟩
  intro e _ name _ h_name hresolve _
  obtain ⟨-, hname⟩ := Option.ite_none_right_eq_some.mp hresolve
  rw [← Option.some.inj hname]
  rfl

/-- The machine `lab12` loads the entry in the section of `lab1`. -/
theorem lab1_loaded_on_lab12 :
    let m := plainHost (text "lab12") (by decide)
    ¬m.SameHost (text "lab1") ∧ ∃ row entries,
      readConfigurationFile (m.system (fun _ => CharArray.zero _) fun _ => 0)
        (some (text "lab1:\nargo mips /bin/cat")) = .ok [row] ∧
      sections (fun _ => CharArray.zero _) (fun _ => 0) none
        ⟨yylex (text "lab1:\nargo mips /bin/cat"), 1⟩ = .ok entries ∧
      selectedRows (fun name => decide (m.SameHost name)) entries = [] := by
  intro m
  obtain ⟨rows, entries, hread, hentries, -, hlen⟩ := labFile_read m.ismyname
  obtain ⟨rows', entries', -, hentries', hrows', hlen'⟩ :=
    labFile_read fun name => decide (m.SameHost name)
  have hother : ¬m.SameHost (text "lab1") := by decide
  rw [if_pos (by decide)] at hlen
  rw [if_neg (by simpa using hother), List.length_eq_zero_iff] at hlen'
  obtain ⟨row, rfl⟩ := List.length_eq_one_iff.mp hlen
  obtain rfl := Except.ok.inj (hentries.symm.trans hentries')
  exact ⟨hother, row, entries, hread, hentries, hrows'.symm.trans hlen'⟩

end XinuConsole.Config
