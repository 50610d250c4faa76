import XinuConsole.Config.Scanner
import XinuConsole.Cserver
import Mathlib.Logic.Relation

/-!
`src/support.c`: the table that `readConfigurationFile` makes of the tokens.

The reader keeps one token of look-ahead behind the arguments of an entry. Where
the source ends the daemon with a message, the model has the message.
-/

namespace XinuConsole.Config

open Lib

/-- What the reader takes from the system: the answers of `ismyname`, and what
the heap holds in a new row, by the number of tokens left behind its entry. -/
structure System where
  ismyname : List Byte → Bool
  user : ℕ → CharArray maxUserName
  contime : ℕ → ℤ

/-- The tokens that `tknext` has not returned yet, and `linecnt`. -/
structure Reader where
  tokens : List Token
  linecnt : ℕ

/-- The ends of the daemon while it reads its configuration. `outside` stands
for `tv[ strlen( tv ) - 1 ]` on an empty string. -/
inductive Failure
  | cannotOpen
  | malformed (line : ℕ)
  | nameLength (conname : List Byte) (line : ℕ)
  | classLength (conclass : List Byte) (line : ℕ)
  | argLength (arg : List Byte) (line : ℕ)
  | tooMany
  | outside

/-- The message of a failure. -/
def Failure.mesg (filename : List Byte) : Failure → List Byte
  | cannotOpen => text "can't open configuration file"
  | malformed line =>
      text "error in configuration file '" ++ filename ++ text "', line " ++ fmtD line
  | nameLength conname line =>
      text "max connection name exceeded for '" ++ conname ++ text "', line " ++ fmtD line
  | classLength conclass line =>
      text "max class name exceeded for '" ++ conclass ++ text "', line " ++ fmtD line
  | argLength arg line =>
      text "max argument length exceeded for '" ++ arg ++ text "', line " ++ fmtD line
  | tooMany => text "max number of connections exceeded"
  | outside => []

/-- `tknext`; no token is `TKEOF`. -/
def tknext : Reader → Option Token × Reader
  | ⟨[], n⟩ => (none, ⟨[], n⟩)
  | ⟨.newline :: ts, n⟩ => (some .newline, ⟨ts, n + 1⟩)
  | ⟨.string sb :: ts, n⟩ => (some (.string sb), ⟨ts, n⟩)

/-- `matchtoken` of `TKSTRING`. -/
def matchtoken (r : Reader) : Except Failure (Str × Reader) :=
  match tknext r with
  | (some (.string sb), r) => .ok (sb, r)
  | (_, r) => .error (.malformed r.linecnt)

/-- `skipNewlines`: the next token that is no newline is a string or the end. -/
def skipNewlines : List Token → ℕ → Option Str × Reader
  | [], n => (none, ⟨[], n⟩)
  | .newline :: ts, n => skipNewlines ts (n + 1)
  | .string sb :: ts, n => (some sb, ⟨ts, n⟩)

/-- The loop of `makeEntry` over the arguments, with room for some more of
them: the arguments, the token behind them and the reader behind that. -/
def progargs : ℕ → Option Token → Reader → Except Failure (List (List Byte) × Option Token × Reader)
  | room + 1, some (.string arg), r =>
      let (tk, r) := tknext r
      if maxArgLength ≤ arg.val.length then .error (.argLength arg.val r.linecnt)
      else
        match progargs room tk r with
        | .error e => .error e
        | .ok (args, tk, r) => .ok (arg.val :: args, tk, r)
  | _, tk, r => .ok ([], tk, r)

theorem progargs_length {room : ℕ} {tk tk' : Option Token} {r r' : Reader}
    {args : List (List Byte)} (h : progargs room tk r = .ok (args, tk', r')) :
    args.length ≤ room := by
  induction room generalizing tk r args with
  | zero =>
      rw [progargs] at h
      · cases h
        exact Nat.le_refl _
      · intro _ _ h
        exact absurd h (by simp)
  | succ room ih =>
      rcases tk with _ | _ | arg
      · cases h
        exact Nat.zero_le _
      · cases h
        exact Nat.zero_le _
      · rw [progargs] at h
        dsimp only at h
        split at h
        · exact absurd h (by simp)
        split at h
        · exact absurd h (by simp)
        · next hrest =>
          cases h
          exact Nat.succ_le_succ (ih hrest)

/-- The arguments with a blank between them, as `strcat` builds them up. -/
def argsline (args : List (List Byte)) : List Byte := ([32] : List Byte).intercalate args

theorem progargs_arg_length {room : ℕ} {tk tk' : Option Token} {r r' : Reader}
    {args : List (List Byte)} (h : progargs room tk r = .ok (args, tk', r')) :
    ∀ arg ∈ args, arg.length < maxArgLength := by
  induction room generalizing tk r args with
  | zero =>
      rw [progargs] at h
      · cases h
        exact fun _ harg => absurd harg List.not_mem_nil
      · intro _ _ h
        exact absurd h (by simp)
  | succ room ih =>
      rcases tk with _ | _ | arg
      · cases h
        exact fun _ harg => absurd harg List.not_mem_nil
      · cases h
        exact fun _ harg => absurd harg List.not_mem_nil
      · rw [progargs] at h
        dsimp only at h
        split at h
        · exact absurd h (by simp)
        next hshort =>
        split at h
        · exact absurd h (by simp)
        · next hrest =>
          cases h
          intro a ha
          rcases List.mem_cons.mp ha with rfl | ha
          · exact Nat.lt_of_not_le hshort
          · exact ih hrest a ha

theorem argsline_length_le {args : List (List Byte)} (h : ∀ arg ∈ args, arg.length < maxArgLength) :
    (argsline args).length ≤ args.length * maxArgLength - 1 := by
  induction args with
  | nil => exact Nat.le_refl _
  | cons arg args ih =>
      have harg := h arg List.mem_cons_self
      have hargs := ih fun a ha => h a (List.mem_cons_of_mem _ ha)
      cases args with
      | nil =>
          simp [argsline] at harg ⊢
          omega
      | cons arg' args =>
          have hline : argsline (arg :: arg' :: args) = arg ++ 32 :: argsline (arg' :: args) := by
            simp [argsline, List.intercalate_cons_cons]
          rw [hline]
          simp only [List.length_append, List.length_cons, maxArgLength] at *
          omega

/-- The calls of `strcat` stay within `argsline`. -/
theorem argsline_length_lt {tk tk' : Option Token} {r r' : Reader} {args : List (List Byte)}
    (h : progargs maxNumberArgs tk r = .ok (args, tk', r')) :
    (argsline args).length < maxNumberArgs * maxArgLength := by
  have hline := argsline_length_le (progargs_arg_length h)
  have hargs := progargs_length h
  simp only [maxNumberArgs, maxArgLength] at *
  omega

/-- `user[ 0 ] = user[ MAXUSERNAME - 1 ] = '\0'` on what the heap holds. -/
def freshUser (user : CharArray maxUserName) : CharArray maxUserName :=
  (user.set 0 0).set (maxUserName - 1) 0

theorem freshUser_end (user : CharArray maxUserName) :
    (freshUser user).val[maxUserName - 1]? = some 0 := by
  show ((user.val.set 0 0).set 15 0)[15]? = some 0
  rw [List.getElem?_set_self]
  rw [List.length_set, user.property]
  decide

/-- The part of `makeEntry` that reads an entry, behind its connection name. -/
def entry (sys : System) (conname : Str) (r : Reader) : Except Failure (Condata × Reader) :=
  match matchtoken r with
  | .error e => .error e
  | .ok (conclass, r) =>
    match matchtoken r with
    | .error e => .error e
    | .ok (conprog, r) =>
      if hname : maxConnectionName ≤ conname.val.length then
        .error (.nameLength conname.val r.linecnt)
      else if hclass : maxClassName ≤ conclass.val.length then
        .error (.classLength conclass.val r.linecnt)
      else
        match hargs : progargs maxNumberArgs (tknext r).1 (tknext r).2 with
        | .error e => .error e
        | .ok (_, some (.string _), r) => .error (.malformed r.linecnt)
        | .ok (args, _, r) =>
            .ok ({ conname := conname.val
                   conclass := conclass.val
                   conprog := conprog.val
                   progargs := args
                   argsline := argsline args
                   user := freshUser (sys.user r.tokens.length)
                   conpid := badPid
                   contime := sys.contime r.tokens.length
                   conname_str := ⟨conname.property, Nat.lt_of_not_le hname⟩
                   conclass_str := ⟨conclass.property, Nat.lt_of_not_le hclass⟩
                   progargs_le := progargs_length hargs
                   user_end := freshUser_end _ }, r)

/-! ### The reader goes forward -/

/-- The second reader is the first one after some calls of `tknext`. -/
abbrev Advances : Reader → Reader → Prop :=
  Relation.ReflTransGen fun r r' => r' = (tknext r).2

theorem advances_tknext (r : Reader) : Advances r (tknext r).2 := .single rfl

theorem Advances.length_le {r r' : Reader} (h : Advances r r') :
    r'.tokens.length ≤ r.tokens.length := by
  induction h with
  | refl => exact Nat.le_refl _
  | @tail r' _ _ hstep ih =>
      subst hstep
      refine Nat.le_trans ?_ ih
      rcases r' with ⟨_ | ⟨_ | sb, ts⟩, n⟩
      · exact Nat.le_refl _
      · exact Nat.le_succ _
      · exact Nat.le_succ _

theorem matchtoken_advances {r r' : Reader} {sb : Str} (h : matchtoken r = .ok (sb, r')) :
    Advances r r' := by
  have hstep := advances_tknext r
  unfold matchtoken at h
  split at h
  · next htk =>
    cases h
    rwa [htk] at hstep
  · exact absurd h (by simp)

theorem skipNewlines_advances {ts : List Token} {n : ℕ} {tk : Option Str} {r : Reader}
    (h : skipNewlines ts n = (tk, r)) : Advances ⟨ts, n⟩ r := by
  induction ts generalizing n with
  | nil =>
      obtain ⟨-, rfl⟩ := Prod.mk.inj h
      exact .refl
  | cons t ts ih =>
      cases t with
      | newline => exact (advances_tknext ⟨.newline :: ts, n⟩).trans (ih h)
      | string sb =>
          obtain ⟨-, rfl⟩ := Prod.mk.inj h
          exact advances_tknext ⟨.string sb :: ts, n⟩

theorem skipNewlines_length {ts : List Token} {n : ℕ} {sb : Str} {r : Reader}
    (h : skipNewlines ts n = (some sb, r)) : r.tokens.length < ts.length := by
  induction ts generalizing n with
  | nil => exact absurd (Prod.mk.inj h).1 (by simp)
  | cons t ts ih =>
      cases t with
      | newline => exact (ih h).trans (Nat.lt_succ_self _)
      | string sb' =>
          obtain ⟨-, rfl⟩ := Prod.mk.inj h
          exact Nat.lt_succ_self _

theorem progargs_advances {room : ℕ} {tk tk' : Option Token} {r r' : Reader}
    {args : List (List Byte)} (h : progargs room tk r = .ok (args, tk', r')) : Advances r r' := by
  induction room generalizing tk r args with
  | zero =>
      rw [progargs] at h
      · cases h
        exact .refl
      · intro _ _ h
        exact absurd h (by simp)
  | succ room ih =>
      rcases tk with _ | _ | arg
      · cases h
        exact .refl
      · cases h
        exact .refl
      · rw [progargs] at h
        dsimp only at h
        split at h
        · exact absurd h (by simp)
        split at h
        · exact absurd h (by simp)
        · next hrest =>
          cases h
          exact (advances_tknext r).trans (ih hrest)

theorem entry_advances {sys : System} {conname : Str} {r r' : Reader} {row : Condata}
    (h : entry sys conname r = .ok (row, r')) : Advances r r' := by
  unfold entry at h
  split at h
  · exact absurd h (by simp)
  next conclass r₁ h₁ =>
  split at h
  · exact absurd h (by simp)
  next conprog r₂ h₂ =>
  split at h
  · exact absurd h (by simp)
  split at h
  · exact absurd h (by simp)
  split at h
  · exact absurd h (by simp)
  · exact absurd h (by simp)
  next h₃ =>
  cases h
  have hnames := (matchtoken_advances h₁).trans (matchtoken_advances h₂)
  exact (hnames.trans (advances_tknext r₂)).trans (progargs_advances h₃)

theorem entry_length {sys : System} {conname : Str} {r r' : Reader} {row : Condata}
    (h : entry sys conname r = .ok (row, r')) : r'.tokens.length ≤ r.tokens.length :=
  (entry_advances h).length_le

/-! ### The table -/

/-- `makeEntry`: nothing at the end of the file, else the next row of a section
of this host, with `defaulthost` and the reader behind it. -/
def makeEntry (sys : System) (defaulthost : Option (List Byte)) (r : Reader) :
    Except Failure (Option (Condata × Option (List Byte) × Reader)) :=
  match _hskip : skipNewlines r.tokens r.linecnt with
  | (none, _) => .ok none
  | (some tv, r₁) =>
    match tv.val.getLast? with
    | none => .error .outside
    | some c =>
      if c = 58 then
        makeEntry sys (if tv.val.dropLast = [] then none else some tv.val.dropLast) r₁
      else
        match _hentry : entry sys tv r₁ with
        | .error e => .error e
        | .ok (cdata, r₂) =>
            if defaulthost.all sys.ismyname then .ok (some (cdata, defaulthost, r₂))
            else makeEntry sys defaulthost r₂
termination_by r.tokens.length
decreasing_by
  · exact skipNewlines_length _hskip
  · exact (entry_length _hentry).trans_lt (skipNewlines_length _hskip)

theorem makeEntry_eof (sys : System) (host : Option (List Byte)) (n : ℕ) :
    makeEntry sys host ⟨[], n⟩ = .ok none := by
  rw [makeEntry]
  rfl

theorem makeEntry_newline (sys : System) (host : Option (List Byte)) (ts : List Token) (n : ℕ) :
    makeEntry sys host ⟨.newline :: ts, n⟩ = makeEntry sys host ⟨ts, n + 1⟩ := by
  rw [makeEntry, makeEntry]
  rfl

/-- A string that ends with a colon begins a section. -/
theorem makeEntry_colon (sys : System) (host : Option (List Byte)) {tv : Str}
    (htv : tv.val.getLast? = some 58) (ts : List Token) (n : ℕ) :
    makeEntry sys host ⟨.string tv :: ts, n⟩ =
      makeEntry sys (if tv.val.dropLast = [] then none else some tv.val.dropLast) ⟨ts, n⟩ := by
  rw [makeEntry]
  split
  · next h => exact absurd (Prod.mk.inj h).1 (by simp)
  · next tv' r' h =>
    obtain ⟨h₁, rfl⟩ := Prod.mk.inj h
    obtain rfl : tv = tv' := Option.some.inj h₁
    split
    · next h => exact absurd (h.symm.trans htv) (by simp)
    · next c hc =>
      obtain rfl : c = 58 := Option.some.inj (hc.symm.trans htv)
      rw [if_pos rfl]

/-- Any other string begins an entry. -/
theorem makeEntry_entry (sys : System) (host : Option (List Byte)) {tv : Str} (hne : tv.val ≠ [])
    (htv : tv.val.getLast? ≠ some 58) (ts : List Token) (n : ℕ) :
    makeEntry sys host ⟨.string tv :: ts, n⟩ =
      match entry sys tv ⟨ts, n⟩ with
      | .error e => .error e
      | .ok (cdata, r) =>
          if host.all sys.ismyname then .ok (some (cdata, host, r)) else makeEntry sys host r := by
  rw [makeEntry]
  split
  · next h => exact absurd (Prod.mk.inj h).1 (by simp)
  · next tv' r' h =>
    obtain ⟨h₁, rfl⟩ := Prod.mk.inj h
    obtain rfl : tv = tv' := Option.some.inj h₁
    split
    · next h => exact absurd (List.getLast?_eq_none_iff.mp h) hne
    · next c hc =>
      rw [if_neg (fun h58 => htv (hc.trans (congrArg some h58)))]
      cases entry sys tv ⟨ts, n⟩ <;> rfl

theorem makeEntry_length {sys : System} {host host' : Option (List Byte)} {r r' : Reader}
    {row : Condata} (h : makeEntry sys host r = .ok (some (row, host', r'))) :
    r'.tokens.length < r.tokens.length := by
  fun_induction makeEntry sys host r with
  | case1 => exact absurd h (by simp)
  | case2 => exact absurd h (by simp)
  | case3 _ _ _ _ hskip _ ih => exact (ih h).trans (skipNewlines_length hskip)
  | case4 => exact absurd h (by simp)
  | case5 _ _ _ _ hskip _ _ _ _ _ hentry =>
      cases h
      exact (entry_length hentry).trans_lt (skipNewlines_length hskip)
  | case6 _ _ _ _ hskip _ _ _ _ _ hentry _ ih =>
      exact (ih h).trans_le ((entry_length hentry).trans (skipNewlines_length hskip).le)

/-- The loop of `readConfigurationFile`. -/
def readEntries (sys : System) (defaulthost : Option (List Byte)) (r : Reader) :
    Except Failure (List Condata) :=
  match _hmake : makeEntry sys defaulthost r with
  | .error e => .error e
  | .ok none => .ok []
  | .ok (some (cdata, defaulthost, r)) =>
    match readEntries sys defaulthost r with
    | .error e => .error e
    | .ok ptbl => .ok (cdata :: ptbl)
termination_by r.tokens.length
decreasing_by exact makeEntry_length _hmake

/-- `readConfigurationFile` of a file with these bytes, or of none. -/
def readConfigurationFile (sys : System) (file : Option (List Byte)) :
    Except Failure (List Condata) :=
  match file with
  | none => .error .cannotOpen
  | some f =>
    match readEntries sys none ⟨yylex f, 1⟩ with
    | .error e => .error e
    | .ok ptbl => if maxConnections < ptbl.length then .error .tooMany else .ok ptbl

/-! ### What holds of every table -/

/-- A row as `makeEntry` returns it: it has a name and nobody holds it. -/
structure Fresh (row : Condata) : Prop where
  named : row.conname ≠ []
  free : row.conpid = badPid
  unused : row.userName = []

theorem freshUser_str (user : CharArray maxUserName) : cstr (freshUser user).val = [] := by
  rw [← headD_eq_zero_iff]
  show ((user.val.set 0 0).set 15 0).headD 0 = 0
  cases user.val <;> rfl

theorem entry_fresh {sys : System} {conname : Str} {r r' : Reader} {row : Condata}
    (hne : conname.val ≠ []) (h : entry sys conname r = .ok (row, r')) : Fresh row := by
  unfold entry at h
  split at h
  · exact absurd h (by simp)
  split at h
  · exact absurd h (by simp)
  split at h
  · exact absurd h (by simp)
  split at h
  · exact absurd h (by simp)
  split at h
  · exact absurd h (by simp)
  · exact absurd h (by simp)
  · cases h
    exact ⟨hne, rfl, freshUser_str _⟩

theorem makeEntry_fresh {sys : System} {host host' : Option (List Byte)} {r r' : Reader}
    {row : Condata} (h : makeEntry sys host r = .ok (some (row, host', r'))) : Fresh row := by
  fun_induction makeEntry sys host r with
  | case1 => exact absurd h (by simp)
  | case2 => exact absurd h (by simp)
  | case3 _ _ _ _ _ _ ih => exact ih h
  | case4 => exact absurd h (by simp)
  | case5 _ _ tv _ _ c hlast _ _ _ hentry =>
      cases h
      refine entry_fresh ?_ hentry
      rintro hnil
      rw [hnil] at hlast
      exact absurd hlast (by simp)
  | case6 _ _ _ _ _ _ _ _ _ _ _ _ ih => exact ih h

theorem readEntries_fresh {sys : System} {host : Option (List Byte)} {r : Reader}
    {rows : List Condata} (h : readEntries sys host r = .ok rows) : ∀ row ∈ rows, Fresh row := by
  fun_induction readEntries sys host r generalizing rows with
  | case1 => exact absurd h (by simp)
  | case2 =>
      cases h
      exact fun _ hrow => absurd hrow List.not_mem_nil
  | case3 => exact absurd h (by simp)
  | case4 _ _ _ _ _ hmake _ hrest ih =>
      cases h
      intro row hrow
      rcases List.mem_cons.mp hrow with rfl | hrow
      · exact makeEntry_fresh hmake
      · exact ih hrest row hrow

/-- Every row of a table that was read is fresh, and there are not too many. -/
theorem readConfigurationFile_fresh {sys : System} {file : Option (List Byte)}
    {rows : List Condata} (h : readConfigurationFile sys file = .ok rows) :
    (∀ row ∈ rows, Fresh row) ∧ rows.length ≤ maxConnections := by
  unfold readConfigurationFile at h
  split at h
  · exact absurd h (by simp)
  split at h
  · exact absurd h (by simp)
  next hread =>
  split at h
  · exact absurd h (by simp)
  next hle =>
  cases h
  exact ⟨readEntries_fresh hread, Nat.le_of_not_lt hle⟩

end XinuConsole.Config
