import XinuConsole.Support

/-!
The command line of `src/xinu-console.c`: the options that `main` takes and the
command line that `subconnect` puts together for the program it starts.

`main` copies the names into static arrays with `strncpy` and never asks how
long they are.
-/

namespace XinuConsole.CommandLine

open Lib

/-- What one or two arguments set. -/
inductive Setting
  | transparent
  | flush
  | cls (name : List Byte)
  | server (name : List Byte)
  | second
  | connection (name : List Byte)
  deriving DecidableEq

/-- The loop of `main` over the arguments behind the program's name; `none`
where `printusage` ends the program. Only the first two characters of an option
are looked at. -/
def settings : List (List Byte) → Option (List Setting)
  | [] => some []
  | arg :: rest =>
      if strnequ arg (text "-h") 2 then none
      else if strnequ arg (text "-t") 2 then (settings rest).map (.transparent :: ·)
      else if strnequ arg (text "-f") 2 then (settings rest).map (.flush :: ·)
      else if strnequ arg (text "-c") 2 then
        match rest with
        | [] => none
        | name :: rest => (settings rest).map (.cls name :: ·)
      else if strnequ arg (text "-s") 2 then
        match rest with
        | [] => none
        | name :: rest => (settings rest).map (.server name :: ·)
      else if strnequ arg (text "-2") 2 then
        -- the counter of the loop is raised here too, so one argument is skipped
        match rest with
        | [] => some [.second]
        | _ :: rest => (settings rest).map (.second :: ·)
      else if arg.headD 0 = 45 then none
      else (settings rest).map (.connection arg :: ·)

/-- The variables of `main` that the arguments set. -/
structure Args where
  transparent : Bool
  flushc : ℕ
  cls : CharArray maxClassName
  host : CharArray (maxHostName + 1)
  connection : CharArray maxConnectionName
  getserial2 : ℤ

/-- The static arrays are zeroed. -/
def Args.start : Args :=
  { transparent := false, flushc := 0, cls := CharArray.zero _, host := CharArray.zero _,
    connection := CharArray.zero _, getserial2 := 0 }

def Args.set (a : Args) : Setting → Args
  | .transparent => { a with transparent := true }
  | .flush => { a with flushc := 2 }
  | .cls name => { a with cls := a.cls.strncpy name (maxClassName - 1) }
  | .server name => { a with host := a.host.strncpy name (maxHostName - 1) (by decide) }
  | .second => { a with getserial2 := 1 }
  | .connection name => { a with connection := a.connection.strncpy name (maxConnectionName - 1) }

/-- The option loop of `main`. -/
def parseArgs (argv : List (List Byte)) : Option Args :=
  (settings argv).map fun ss => ss.foldl Args.set Args.start

/-- The arguments of the program that `subconnect` executes: `con` is the
connection with the extension behind it, which always fits its buffer. -/
def subconnectArgs (connection cls connectionExt host : List Byte) : List (List Byte) :=
  [text "-t", text "-f", text "-c", cls, text "-s", host, cstr connection ++ connectionExt]

/-- The classes that `subconnect` is called with, and the extensions. -/
def subconnects : List (List Byte × List Byte) :=
  [(text "POWEROFF", text "-pf"), (text "DOWNLOAD", text "-dl"), (text "POWERCYCLE", text "-pc"),
    (text "POWERON", text "-pn")]

/-- An argument that does not begin with a hyphen names the connection. -/
theorem settings_connection {arg : List Byte} (h : arg.headD 0 ≠ 45) (rest : List (List Byte)) :
    settings (arg :: rest) = (settings rest).map (.connection arg :: ·) := by
  have hoption : ∀ c : Byte, c ≠ 0 → strnequ arg [45, c] 2 = false := by
    intro c hc
    refine Bool.eq_false_iff.mpr fun heq => h ?_
    have hstr := (strnequ_iff _ _ _).mp heq
    cases arg with
    | nil => simp [cstr, hc] at hstr
    | cons x arg =>
        by_cases hx : x = 0
        · simp [cstr, hc, hx] at hstr
        · simp [cstr, hc, hx] at hstr
          exact hstr.1
  rw [settings.eq_def]
  simp only [show text "-h" = [45, 104] by decide, show text "-t" = [45, 116] by decide,
    show text "-f" = [45, 102] by decide, show text "-c" = [45, 99] by decide,
    show text "-s" = [45, 115] by decide, show text "-2" = [45, 50] by decide]
  rw [hoption _ (by decide), hoption _ (by decide), hoption _ (by decide), hoption _ (by decide),
    hoption _ (by decide), hoption _ (by decide)]
  exact if_neg h

theorem strnequ_hyphen (rest : List Byte) {c : Byte} (hc : c ≠ 0) :
    strnequ (45 :: rest) [45, c] 2 = decide (rest.headD 0 = c) := by
  refine Bool.eq_iff_iff.mpr ((strnequ_iff _ _ _).trans ?_)
  cases rest with
  | nil => simp [cstr, hc, hc.symm]
  | cons x rest =>
      by_cases hx : x = 0
      · simp [cstr, hc, hx, hc.symm]
      · simp [cstr, hc, hx]

/-- An argument that begins with a hyphen is an option that needs no other, or
it ends the program if it is the last. -/
theorem settings_hyphen {arg : List Byte} (h : arg.headD 0 = 45) :
    settings [arg] =
      if arg.tail.headD 0 = 116 then some [.transparent]
      else if arg.tail.headD 0 = 102 then some [.flush]
      else if arg.tail.headD 0 = 50 then some [.second]
      else none := by
  cases arg with
  | nil => exact absurd h (by decide)
  | cons b rest =>
      obtain rfl : b = 45 := h
      rw [settings.eq_def]
      simp only [show text "-h" = [45, 104] by decide, show text "-t" = [45, 116] by decide,
        show text "-f" = [45, 102] by decide, show text "-c" = [45, 99] by decide,
        show text "-s" = [45, 115] by decide, show text "-2" = [45, 50] by decide]
      rw [strnequ_hyphen rest (by decide), strnequ_hyphen rest (by decide),
        strnequ_hyphen rest (by decide), strnequ_hyphen rest (by decide),
        strnequ_hyphen rest (by decide), strnequ_hyphen rest (by decide)]
      simp only [decide_eq_true_eq, List.tail_cons, List.headD_cons, if_true, settings,
        Option.map_some]
      -- the letters h, c and s are none of the three
      grind

/-! ### The names that are given -/

def Setting.connection? : Setting → Option (List Byte)
  | .connection name => some name
  | _ => none

def Setting.cls? : Setting → Option (List Byte)
  | .cls name => some name
  | _ => none

/-- The connection that the arguments name: the last one, whole. -/
def connectionGiven (ss : List Setting) : List Byte :=
  cstr ((ss.filterMap Setting.connection?).getLast?.getD [])

/-- The class that the arguments name. -/
def classGiven (ss : List Setting) : List Byte := cstr ((ss.filterMap Setting.cls?).getLast?.getD [])

theorem strncpy_end {n : ℕ} (a : CharArray (n + 1)) (ha : a.val[n]? = some 0) (src : List Byte) :
    (a.strncpy src (n + 1 - 1)).val[n]? = some 0 := by
  simp only [CharArray.strncpy]
  rw [List.getElem?_append_right (by simp)]
  simpa using ha

/-- The last byte of the arrays stays a terminator. -/
theorem foldl_set_end (ss : List Setting) :
    (ss.foldl Args.set Args.start).connection.val[maxConnectionName - 1]? = some 0 ∧
      (ss.foldl Args.set Args.start).cls.val[maxClassName - 1]? = some 0 := by
  induction ss using List.reverseRecOn with
  | nil => exact ⟨by decide, by decide⟩
  | append_singleton ss s ih =>
      rw [List.foldl_append, List.foldl_cons, List.foldl_nil]
      generalize ss.foldl Args.set Args.start = a at ih
      cases s with
      | cls name => exact ⟨ih.1, strncpy_end a.cls ih.2 name⟩
      | connection name => exact ⟨strncpy_end a.connection ih.1 name, ih.2⟩
      | _ => exact ih

theorem connectionGiven_snoc (ss : List Setting) (s : Setting) :
    connectionGiven (ss ++ [s]) = (s.connection?.map cstr).getD (connectionGiven ss) := by
  cases s <;> simp [connectionGiven, Setting.connection?]

theorem classGiven_snoc (ss : List Setting) (s : Setting) :
    classGiven (ss ++ [s]) = (s.cls?.map cstr).getD (classGiven ss) := by
  cases s <;> simp [classGiven, Setting.cls?]

/-- What the arrays hold is the beginning of what was given. -/
theorem foldl_set_names (ss : List Setting) :
    cstr (ss.foldl Args.set Args.start).connection.val = (connectionGiven ss).take 15 ∧
      cstr (ss.foldl Args.set Args.start).cls.val = (classGiven ss).take 15 := by
  induction ss using List.reverseRecOn with
  | nil => exact ⟨by decide, by decide⟩
  | append_singleton ss s ih =>
      have hend := foldl_set_end ss
      rw [List.foldl_append, List.foldl_cons, List.foldl_nil, connectionGiven_snoc, classGiven_snoc]
      generalize ss.foldl Args.set Args.start = a at ih hend
      cases s with
      | cls name => exact ⟨ih.1, CharArray.cstr_strncpy a.cls hend.2 name (by decide)⟩
      | connection name =>
          exact ⟨CharArray.cstr_strncpy a.connection hend.1 name (by decide), ih.2⟩
      | _ => exact ih

/-- So do the arrays behind the option loop. -/
theorem parseArgs_names {argv : List (List Byte)} {a : Args} (h : parseArgs argv = some a) :
    ∃ ss, settings argv = some ss ∧ cstr a.connection.val = (connectionGiven ss).take 15 ∧
      cstr a.cls.val = (classGiven ss).take 15 := by
  obtain ⟨ss, hss, rfl⟩ := Option.map_eq_some_iff.mp h
  exact ⟨ss, hss, foldl_set_names ss⟩

/-- What the program that `subconnect` starts makes of its arguments. -/
theorem settings_subconnectArgs (connection cls ext host : List Byte) :
    settings (subconnectArgs connection cls ext host) = (settings [cstr connection ++ ext]).map
      ([.transparent, .flush, .cls cls, .server host] ++ ·) := by
  have ht : ∀ rest, settings (text "-t" :: rest) = (settings rest).map (.transparent :: ·) := by
    intro rest
    rw [settings.eq_def]
    rfl
  have hf : ∀ rest, settings (text "-f" :: rest) = (settings rest).map (.flush :: ·) := by
    intro rest
    rw [settings.eq_def]
    rfl
  have hc : ∀ name rest, settings (text "-c" :: name :: rest) =
    (settings rest).map (.cls name :: ·) := by
    intro name rest
    rw [settings.eq_def]
    rfl
  have hs : ∀ name rest, settings (text "-s" :: name :: rest) =
    (settings rest).map (.server name :: ·) := by
    intro name rest
    rw [settings.eq_def]
    rfl
  rw [subconnectArgs, ht, hf, hc, hs]
  simp [Function.comp_def]

end XinuConsole.CommandLine
