import XinuConsole.NetWrites
import XinuConsole.Relay
import XinuConsole.TtyMode

/-!
The terminal of `src/xinu-console.c`: `restoreTTY` and `setTTY` around everything that
command mode does away from the connection.

The session of `Console` once more, with the settings of the terminal beside it, and a
record of the settings that were in force whenever somebody depended on them.
-/

namespace XinuConsole.Console

open Lib Connectto
open TtyMode (Termios)

/-- What a terminal is needed for: a key of command mode, a line with a file name, a
program, and the time of a suspension. -/
inductive Sight
  | key
  | line
  | program
  | suspended
  deriving DecidableEq

/-- `isatty_stdin`, the terminal, and how many calls on it were made. -/
structure Tty where
  isattyStdin : ℤ
  mode : TtyMode.State
  asked : ℕ

/-- What the surroundings answer: whether the standard input is a terminal, whether
the calls on it succeed, and what whoever has the terminal in the meantime makes of its
settings. -/
structure Desk where
  isatty : Bool
  get : ℕ → Bool
  set : ℕ → Bool
  leaves : ℕ → Termios → Termios

variable (d : Desk)

def Tty.restoreTTY (t : Tty) : Tty :=
  if t.isattyStdin = 1 then
    { t with
      mode := (TtyMode.restoretty 0 (d.set t.asked) t.mode).getD t.mode
      asked := t.asked + 1 }
  else t

def Tty.setTTY (t : Tty) : Tty :=
  let t := if t.isattyStdin = -1 then { t with isattyStdin := if d.isatty then 1 else 0 } else t
  if t.isattyStdin = 1 then
    { t with
      mode := (TtyMode.rawtty 0 (d.get t.asked) (d.set t.asked) t.mode).getD t.mode
      asked := t.asked + 1 }
  else t

structure Seat where
  console : State
  tty : Tty
  seen : List (Sight × Termios)

namespace Seat

def restoreTTY (w : Seat) : Seat := { w with tty := w.tty.restoreTTY d }

def setTTY (w : Seat) : Seat := { w with tty := w.tty.setTTY d }

def look (w : Seat) (what : Sight) : Seat := { w with seen := w.seen ++ [(what, w.tty.mode.term)] }

/-- Somebody else has the terminal. -/
def leave (w : Seat) (what : Sight) : Seat :=
  let w := w.look what
  { w with tty := { w.tty with mode :=
      { w.tty.mode with term := d.leaves w.seen.length w.tty.mode.term } } }

variable (o : Outside)

def issueRun (w : Seat) (program : Started) : ℤ × Seat :=
  let w := w.leave d .program
  let (status, s) := w.console.issueRun o program
  (status, { w with console := s })

def subconnect (cls connectionExt : String) (getfile : Bool) (w : Seat) : ℤ × Seat :=
  if getfile then
    let w := w.look .line
    match getFilename w.console.lastDownload o.envFilename (text "a.out") w.console with
    | (none, s) => (-1, { w with console := s })
    | (some file, s) =>
      { w with console := { s with lastDownload := file } }.issueRun d o
        (.subconnect (text cls) (text connectionExt) (some file))
  else w.issueRun d o (.subconnect (text cls) (text connectionExt) none)

def spawnconnect (w : Seat) : ℤ × Seat :=
  let w := w.look .line
  match getFilename w.console.lastSpawn none (text "a.out") w.console with
  | (none, s) => (-1, { w with console := s })
  | (some file, s) =>
    { w with console := { s with lastSpawn := file } }.issueRun d o (.spawn file)

def suspend (w : Seat) : Seat :=
  let w := w.leave d .suspended
  { w with console := { w.console with calls := w.console.calls ++ [.suspend] } }

/-- One character of command mode. -/
def command (devout : ℤ) (ch : Byte) (w : Seat) : Option ℤ × Seat :=
  let away (cls ext : String) (getfile : Bool) (other : Option ℤ) : Option ℤ × Seat :=
    let (status, w) := (w.restoreTTY d).subconnect d o cls ext getfile
    (if status = 0 then some 1 else other, w.setTTY d)
  if ch = 4 ∨ ch = 113 then away "POWEROFF" "-pf" false (some 0)
  else if ch = 120 then (some 0, w)
  else if ch = 99 then (some 1, w)
  else if ch = 122 then (none, ((w.restoreTTY d).suspend d).setTTY d)
  else if ch = 98 then
    (some 1, { w with console := (w.console.issueWrite o devout (text "\\b")).2 })
  else if ch = 100 then away "DOWNLOAD" "-dl" true none
  else if ch = 112 then away "POWERCYCLE" "-pc" false none
  else if ch = 102 then away "POWEROFF" "-pf" false none
  else if ch = 110 then away "POWERON" "-pn" false none
  else if ch = 115 then (none, (((w.restoreTTY d).spawnconnect d o).2).setTTY d)
  else (none, w)

/-! ### The terminal does not matter to the session -/

theorem subconnect_console (cls ext : String) (getfile : Bool) (w : Seat) :
    (w.subconnect d o cls ext getfile).1 = (Console.subconnect o cls ext getfile w.console).1 ∧
      (w.subconnect d o cls ext getfile).2.console =
        (Console.subconnect o cls ext getfile w.console).2 := by
  unfold subconnect Console.subconnect
  split
  · dsimp only [look]
    rcases getFilename w.console.lastDownload o.envFilename (text "a.out") w.console with
      ⟨_ | file, s⟩ <;> exact ⟨rfl, rfl⟩
  · exact ⟨rfl, rfl⟩

theorem spawnconnect_console (w : Seat) :
    (w.spawnconnect d o).2.console = (Console.spawnconnect o w.console).2 := by
  unfold spawnconnect Console.spawnconnect
  dsimp only [look]
  rcases getFilename w.console.lastSpawn none (text "a.out") w.console with ⟨_ | file, s⟩ <;> rfl

theorem command_console (devout : ℤ) (ch : Byte) (w : Seat) :
    (w.command d o devout ch).1 = (Console.command o devout ch w.console).1 ∧
      (w.command d o devout ch).2.console = (Console.command o devout ch w.console).2 := by
  have haway (cls ext : String) (getfile : Bool) (other : Option ℤ) :
      let r := (w.restoreTTY d).subconnect d o cls ext getfile
      let r' := Console.subconnect o cls ext getfile w.console
      (if r.1 = 0 then some 1 else other) = (if r'.1 = 0 then some 1 else other) ∧
        (r.2.setTTY d).console = r'.2 := by
    obtain ⟨hstatus, hconsole⟩ := subconnect_console d o cls ext getfile (w.restoreTTY d)
    exact ⟨by rw [hstatus]; rfl, hconsole⟩
  have helse {c : Prop} [Decidable c] {x y : Option ℤ × Seat} {x' y' : Option ℤ × State}
      (hx : x.1 = x'.1 ∧ x.2.console = x'.2) (hy : y.1 = y'.1 ∧ y.2.console = y'.2) :
      (if c then x else y).1 = (if c then x' else y').1 ∧
        (if c then x else y).2.console = (if c then x' else y').2 := by
    split
    · exact hx
    · exact hy
  unfold command Console.command
  refine helse (haway "POWEROFF" "-pf" false (some 0)) ?_
  refine helse ⟨rfl, rfl⟩ ?_
  refine helse ⟨rfl, rfl⟩ ?_
  refine helse ⟨rfl, rfl⟩ ?_
  refine helse ⟨rfl, rfl⟩ ?_
  refine helse (haway "DOWNLOAD" "-dl" true none) ?_
  refine helse (haway "POWERCYCLE" "-pc" false none) ?_
  refine helse (haway "POWEROFF" "-pf" false none) ?_
  refine helse (haway "POWERON" "-pn" false none) ?_
  exact helse ⟨rfl, spawnconnect_console d o (w.restoreTTY d)⟩ ⟨rfl, rfl⟩

/-- `handlebreak`. -/
def handlebreak (devout : ℤ) (w : Seat) : ℤ × Seat :=
  let w := w.look .key
  match _h : getInput w.console with
  | (none, s) => (0, { w with console := s })
  | (some ch, s₁) =>
    match _hc : Seat.command d o devout (ch &&& 0x7F)
        { w with console := s₁.echo (ch &&& 0x7F) } with
    | (some rv, w₂) => (rv, w₂)
    | (none, w₂) => handlebreak devout w₂
termination_by w.console.left
decreasing_by
  have hleft := left_getInput _h
  have hcommand := (command_console d o devout (ch &&& 0x7F)
    { w with console := s₁.echo (ch &&& 0x7F) }).2
  rw [_hc] at hcommand
  rw [hcommand]
  exact (left_command o devout (ch &&& 0x7F) (s₁.echo (ch &&& 0x7F))).1.trans_lt hleft

theorem handlebreak_console (devout : ℤ) (w : Seat) :
    (w.handlebreak d o devout).1 = (Console.handlebreak o devout w.console).1 ∧
      (w.handlebreak d o devout).2.console = (Console.handlebreak o devout w.console).2 := by
  have hcommand {ch : Byte} {w : Seat} {r : Option ℤ × Seat} (hc : w.command d o devout ch = r) :
      Console.command o devout ch w.console = (r.1, r.2.console) := by
    obtain ⟨hrv, hconsole⟩ := command_console d o devout ch w
    rw [hc] at hrv hconsole
    exact Prod.ext hrv.symm hconsole.symm
  fun_induction handlebreak d o devout w with
  | case1 w looked s h =>
      have h : getInput w.console = (none, s) := h
      rw [handlebreak_none h]
      exact ⟨rfl, rfl⟩
  | case2 w looked ch s₁ h rv w₂ hc =>
      have h : getInput w.console = (some ch, s₁) := h
      rw [handlebreak_some h, hcommand hc]
      exact ⟨rfl, rfl⟩
  | case3 w looked ch s₁ h w₂ hc ih =>
      have h : getInput w.console = (some ch, s₁) := h
      rw [handlebreak_some h, hcommand hc]
      exact ih

/-- The loop of `flush2net`. -/
def flush2netLoop (devout : ℤ) (start : ℕ) (w : Seat) : ℤ × Seat :=
  let s := w.console
  if _h : s.curr < s.buf.length then
    let ch := s.buf[s.curr]
    let read := { s with curr := s.curr + 1 }
    if ch = 92 then
      let sent := read.sendRange o devout start (read.curr - start)
      if sent.1 = false then (start, { w with console := sent.2 })
      else
        let doubled := sent.2.issueWrite o devout [92]
        if doubled.1 ≠ 1 then (start, { w with console := doubled.2 })
        else flush2netLoop devout doubled.2.curr { w with console := doubled.2 }
    else if ch = escCharacter then
      let sent := read.sendPending o devout start (read.curr - start - 1)
      if sent.1 = false then (start, { w with console := sent.2 })
      else
        let broken := Seat.handlebreak d o devout { w with console := sent.2 }
        if broken.1 ≤ 0 then broken else flush2netLoop devout broken.2.console.curr broken.2
    else flush2netLoop devout start { w with console := read }
  else if s.curr ≠ start then
    let sent := s.sendRange o devout start (s.curr - start)
    if sent.1 = false then (start, { w with console := sent.2 })
    else (s.buf.length, { w with console := sent.2 })
  else (s.buf.length, w)
termination_by w.console.buf.length - w.console.curr
decreasing_by
  · change s.buf.length - (s.curr + 1) < s.buf.length - s.curr
    omega
  · have hsent := sendPending_frame o read devout start (read.curr - start - 1)
    have hbroken := handlebreak_frame o devout sent.2
    rw [← (handlebreak_console d o devout { w with console := sent.2 }).2] at hbroken
    have hless : ∀ s' : State, s'.buf = s.buf → s.curr + 1 ≤ s'.curr →
        s'.buf.length - s'.curr < s.buf.length - s.curr := by
      intro s' hbuf hcurr
      rw [hbuf]
      omega
    exact hless _ (hbroken.1.trans hsent.1) (hsent.2.ge.trans hbroken.2)
  · change s.buf.length - (s.curr + 1) < s.buf.length - s.curr
    omega

theorem flush2netLoop_console (devout : ℤ) (start : ℕ) (w : Seat) :
    (w.flush2netLoop d o devout start).1 = (Console.flush2netLoop o devout start w.console).1 ∧
      (w.flush2netLoop d o devout start).2.console =
        (Console.flush2netLoop o devout start w.console).2 := by
  fun_induction flush2netLoop d o devout start w with
  | case1 start w s hlt ch read hch sent hsent =>
      rw [Console.flush2netLoop, dif_pos hlt, if_pos hch, if_pos hsent]
      exact ⟨rfl, rfl⟩
  | case2 start w s hlt ch read hch sent hsent doubled hdoubled =>
      rw [Console.flush2netLoop, dif_pos hlt, if_pos hch, if_neg hsent, if_pos hdoubled]
      exact ⟨rfl, rfl⟩
  | case3 start w s hlt ch read hch sent hsent doubled hdoubled ih =>
      rw [Console.flush2netLoop, dif_pos hlt, if_pos hch, if_neg hsent, if_neg hdoubled]
      exact ih
  | case4 start w s hlt ch read hch hesc sent hsent =>
      rw [Console.flush2netLoop, dif_pos hlt, if_neg hch, if_pos hesc, if_pos hsent]
      exact ⟨rfl, rfl⟩
  | case5 start w s hlt ch read hch hesc sent hsent broken hbroken =>
      obtain ⟨hrv, hconsole⟩ := handlebreak_console d o devout { w with console := sent.2 }
      rw [Console.flush2netLoop, dif_pos hlt, if_neg hch, if_pos hesc, if_neg hsent,
        if_pos (hrv ▸ hbroken)]
      exact ⟨hrv, hconsole⟩
  | case6 start w s hlt ch read hch hesc sent hsent broken hbroken ih =>
      obtain ⟨hrv, hconsole⟩ := handlebreak_console d o devout { w with console := sent.2 }
      rw [Console.flush2netLoop, dif_pos hlt, if_neg hch, if_pos hesc, if_neg hsent,
        if_neg (hrv ▸ hbroken), ← hconsole]
      exact ih
  | case7 start w s hlt ch read hch hesc ih =>
      rw [Console.flush2netLoop, dif_pos hlt, if_neg hch, if_neg hesc]
      exact ih
  | case8 start w s hge hne sent hsent =>
      rw [Console.flush2netLoop, dif_neg hge, if_pos hne, if_pos hsent]
      exact ⟨rfl, rfl⟩
  | case9 start w s hge hne sent hsent =>
      rw [Console.flush2netLoop, dif_neg hge, if_pos hne, if_neg hsent]
      exact ⟨rfl, rfl⟩
  | case10 start w s hge hne =>
      rw [Console.flush2netLoop, dif_neg hge, if_neg hne]
      exact ⟨rfl, rfl⟩

def flush2net (devout : ℤ) (buf : List Byte) (w : Seat) : ℤ × Seat :=
  Seat.flush2netLoop d o devout 0
    { w with console :=
        { w.console with buf := buf.map (· &&& 0x7F), curr := 0, gotInput := true } }

/-- `flushdata` without `-t`. -/
def flushdata (devout : ℤ) (buf : List Byte) (w : Seat) : ℤ × Seat :=
  if devout = 1 then
    let (rv, s) := w.console.issueWrite o devout (buf.map (· &&& 0x7F))
    (rv, { w with console := s })
  else w.flush2net d o devout buf

/-- The filter with the terminal beside it does what the filter does. -/
theorem flushdata_console (devout : ℤ) (buf : List Byte) (w : Seat) :
    (w.flushdata d o devout buf).1 = (Console.flushdata o false devout buf w.console).1 ∧
      (w.flushdata d o devout buf).2.console =
        (Console.flushdata o false devout buf w.console).2 := by
  unfold flushdata Console.flushdata
  rw [if_neg Bool.false_ne_true]
  split
  · exact ⟨rfl, rfl⟩
  · exact flush2netLoop_console d o devout 0 _

end Seat

/-! ### Whose settings are in force -/

/-- The settings that were left last when this was seen: `init`, until a program or
whoever suspended the console leaves others. -/
def lastLeft (init : Termios) (seen : List (Sight × Termios)) : Termios :=
  leftAfter 0 init seen
where
  leftAfter (k : ℕ) (last : Termios) : List (Sight × Termios) → Termios
    | [] => last
    | (what, t) :: rest =>
        leftAfter (k + 1)
          (if what = .program ∨ what = .suspended then d.leaves (k + 1) t else last) rest

theorem lastLeft_append (init : Termios) (seen : List (Sight × Termios)) (what : Sight)
    (t : Termios) :
    lastLeft d init (seen ++ [(what, t)]) =
      if what = .program ∨ what = .suspended then d.leaves (seen.length + 1) t
      else lastLeft d init seen := by
  have hafter : ∀ k last, lastLeft.leftAfter d k last (seen ++ [(what, t)]) =
      if what = .program ∨ what = .suspended then d.leaves (k + seen.length + 1) t
      else lastLeft.leftAfter d k last seen := by
    induction seen with
    | nil => exact fun k last => rfl
    | cons p seen ih =>
        intro k last
        rw [List.cons_append, lastLeft.leftAfter, ih, List.length_cons, lastLeft.leftAfter,
          Nat.add_assoc k 1, Nat.add_comm 1]
  rw [lastLeft, hafter, Nat.zero_add, lastLeft]

/-- The terminal while somebody else may use it, who finds the settings `u`. -/
structure Away (u : Termios) (t : Tty) : Prop where
  isatty : t.isattyStdin = if d.isatty then 1 else 0
  free : t.mode.ttyissaved 0 = false
  own : t.mode.term = u

/-- The terminal while the console reads keys, and `u` are to be put back. -/
structure AtKeys (u : Termios) (t : Tty) : Prop where
  isatty : t.isattyStdin = if d.isatty then 1 else 0
  raw : d.isatty = true → t.mode.ttyissaved 0 = true ∧ t.mode.savedttys 0 = u ∧
    t.mode.term = u.raw
  other : d.isatty = false → t.mode.ttyissaved 0 = false ∧ t.mode.term = u

/-- What is seen where `u` were left last: keys are read from the raw mode made of them,
everything else finds them as they are. -/
def Fits (u : Termios) : Sight × Termios → Prop
  | (.key, t) => t = if d.isatty then u.raw else u
  | (_, t) => t = u

/-- Everything that was seen is as it should be. -/
def AllFit (init : Termios) (seen : List (Sight × Termios)) : Prop :=
  ∀ before p behind, seen = before ++ p :: behind → Fits d (lastLeft d init before) p

theorem AllFit.append {d : Desk} {init : Termios} {seen : List (Sight × Termios)}
    (h : AllFit d init seen) {p : Sight × Termios} (hp : Fits d (lastLeft d init seen) p) :
    AllFit d init (seen ++ [p]) := by
  intro before q behind hsplit
  rcases List.eq_nil_or_concat behind with rfl | ⟨behind, r, rfl⟩
  · obtain ⟨rfl, hq⟩ := List.append_inj' hsplit rfl
    obtain rfl : p = q := (List.cons.inj hq).1
    exact hp
  · rw [List.concat_eq_append, ← List.cons_append, ← List.append_assoc] at hsplit
    obtain ⟨hsplit, -⟩ := List.append_inj' hsplit rfl
    exact h before q behind hsplit

section Settings

variable {d} {init u : Termios} (hget : ∀ k, d.get k = true) (hset : ∀ k, d.set k = true)

include hset in
theorem AtKeys.restoreTTY {t : Tty} (h : AtKeys d u t) : Away d u (t.restoreTTY d) := by
  have hisatty := h.isatty
  cases htty : d.isatty with
  | false =>
      rw [htty, if_neg Bool.false_ne_true] at hisatty
      obtain ⟨hfree, hown⟩ := h.other htty
      rw [Tty.restoreTTY, if_neg (by omega)]
      exact ⟨h.isatty, hfree, hown⟩
  | true =>
      rw [htty, if_pos rfl] at hisatty
      obtain ⟨hsaved, hown, -⟩ := h.raw htty
      have hcall := TtyMode.call_eq 0 t.mode (.restoretty (d.set t.asked))
      simp only [TtyMode.call, Fin.val_zero, Nat.cast_zero] at hcall
      rw [Tty.restoreTTY, if_pos hisatty, hcall, Option.getD_some]
      refine ⟨h.isatty, by simp [TtyMode.State.after], ?_⟩
      simpa [TtyMode.State.after, hsaved, hset] using hown

include hget hset in
/-- `setTTY`, the first time and after everything that was done away from the keys. -/
theorem atKeys_setTTY {t : Tty} (hisatty : t.isattyStdin = -1 ∨
      t.isattyStdin = if d.isatty then 1 else 0)
    (hfree : t.mode.ttyissaved 0 = false) (hown : t.mode.term = u) :
    AtKeys d u (t.setTTY d) := by
  generalize ht : (if t.isattyStdin = -1 then
    { t with isattyStdin := if d.isatty then 1 else 0 } else t) = v
  have hv : v.isattyStdin = (if d.isatty then 1 else 0) ∧ v.mode = t.mode := by
    rw [← ht]
    split
    · exact ⟨rfl, rfl⟩
    · next hne => exact ⟨hisatty.resolve_left hne, rfl⟩
  obtain ⟨hisatty, hmode⟩ := hv
  have hset' : t.setTTY d = if v.isattyStdin = 1 then
      { v with
        mode := (TtyMode.rawtty 0 (d.get v.asked) (d.set v.asked) v.mode).getD v.mode
        asked := v.asked + 1 }
      else v := by
    rw [Tty.setTTY, ht]
  rw [← hmode] at hfree hown
  rw [hset']
  cases htty : d.isatty with
  | false =>
      rw [if_neg (by rw [hisatty, htty]; decide)]
      exact ⟨hisatty, fun h => absurd h (by simp [htty]), fun _ => ⟨hfree, hown⟩⟩
  | true =>
      have hcall := TtyMode.call_eq 0 v.mode (.rawtty (d.get v.asked) (d.set v.asked))
      simp only [TtyMode.call, Fin.val_zero, Nat.cast_zero] at hcall
      rw [if_pos (by rw [hisatty, htty]; rfl), hcall, Option.getD_some]
      have hafter : v.mode.after 0 (.rawtty (d.get v.asked) (d.set v.asked)) =
          ⟨v.mode.term.raw, Function.update v.mode.savedttys 0 v.mode.term,
            Function.update v.mode.ttyissaved 0 true⟩ := by
        simp [TtyMode.State.after, TtyMode.setMode, hfree, hget, hset]
      rw [hafter]
      refine ⟨hisatty, fun _ => ?_, fun h => absurd h (by simp [htty])⟩
      simp [hown]

/-! ### What every call keeps -/

/-- The console reads keys. -/
def Seat.AtWork (d : Desk) (init : Termios) (w : Seat) : Prop :=
  AtKeys d (lastLeft d init w.seen) w.tty ∧ AllFit d init w.seen

/-- Somebody else has the terminal. -/
def Seat.Apart (d : Desk) (init : Termios) (w : Seat) : Prop :=
  Away d (lastLeft d init w.seen) w.tty ∧ AllFit d init w.seen

variable {w : Seat} (o : Outside)

theorem Seat.AtWork.look (h : w.AtWork d init) : (w.look .key).AtWork d init := by
  have hsame : lastLeft d init (w.look .key).seen = lastLeft d init w.seen := by
    rw [Seat.look, lastLeft_append, if_neg (by simp)]
  refine ⟨hsame ▸ h.1, h.2.append ?_⟩
  rw [Fits]
  cases htty : d.isatty with
  | true => exact (h.1.raw htty).2.2
  | false => exact (h.1.other htty).2

/-- A line is read while the terminal is the user's. -/
theorem Seat.Apart.look (h : w.Apart d init) : (w.look .line).Apart d init := by
  have hsame : lastLeft d init (w.look .line).seen = lastLeft d init w.seen := by
    rw [Seat.look, lastLeft_append, if_neg (by simp)]
  exact ⟨hsame ▸ h.1, h.2.append h.1.own⟩

/-- Whoever has the terminal leaves other settings. -/
theorem Seat.Apart.leave (h : w.Apart d init) {what : Sight}
    (hwhat : what = .program ∨ what = .suspended) : (w.leave d what).Apart d init := by
  obtain ⟨⟨hisatty, hfree, hown⟩, hseen⟩ := h
  refine ⟨⟨hisatty, hfree, ?_⟩, hseen.append ?_⟩
  · show d.leaves _ w.tty.mode.term = lastLeft d init (w.seen ++ [(what, w.tty.mode.term)])
    rw [lastLeft_append, if_pos hwhat, Seat.look, List.length_append, List.length_singleton]
  · rcases hwhat with rfl | rfl
    · exact hown
    · exact hown

theorem Seat.Apart.issueRun (h : w.Apart d init) (program : Started) :
    (w.issueRun d o program).2.Apart d init := by
  have hleave := h.leave (.inl rfl)
  exact hleave

theorem Seat.Apart.subconnect (h : w.Apart d init) (cls ext : String) (getfile : Bool) :
    (w.subconnect d o cls ext getfile).2.Apart d init := by
  have hlook := h.look
  unfold Seat.subconnect
  split
  · dsimp only
    split
    · exact hlook
    · next file s _ =>
        have hnext : Seat.Apart d init
            { w.look .line with console := { s with lastDownload := file } } := hlook
        exact hnext.issueRun o _
  · exact h.issueRun o _

theorem Seat.Apart.spawnconnect (h : w.Apart d init) : (w.spawnconnect d o).2.Apart d init := by
  have hlook := h.look
  unfold Seat.spawnconnect
  dsimp only
  split
  · exact hlook
  · next file s _ =>
      have hnext : Seat.Apart d init
          { w.look .line with console := { s with lastSpawn := file } } := hlook
      exact hnext.issueRun o _

include hset in
theorem Seat.AtWork.restoreTTY (h : w.AtWork d init) : (w.restoreTTY d).Apart d init :=
  ⟨h.1.restoreTTY hset, h.2⟩

include hget hset in
theorem Seat.Apart.setTTY (h : w.Apart d init) : (w.setTTY d).AtWork d init :=
  ⟨atKeys_setTTY hget hset (.inr h.1.isatty) h.1.free h.1.own, h.2⟩

include hget hset in
theorem Seat.AtWork.command (h : w.AtWork d init) (devout : ℤ) (ch : Byte) :
    (w.command d o devout ch).2.AtWork d init := by
  have haway (cls ext : String) (getfile : Bool) :
      (((w.restoreTTY d).subconnect d o cls ext getfile).2.setTTY d).AtWork d init :=
    ((h.restoreTTY hset).subconnect o cls ext getfile).setTTY hget hset
  have hspawn := ((h.restoreTTY hset).spawnconnect o).setTTY hget hset
  have hsuspend : (((w.restoreTTY d).suspend d).setTTY d).AtWork d init := by
    have hleave := (h.restoreTTY hset).leave (.inr rfl)
    have hnext : ((w.restoreTTY d).suspend d).Apart d init := hleave
    exact hnext.setTTY hget hset
  have helse {c : Prop} [Decidable c] {x y : Option ℤ × Seat} (hx : x.2.AtWork d init)
      (hy : y.2.AtWork d init) : (if c then x else y).2.AtWork d init := by
    split
    · exact hx
    · exact hy
  unfold Seat.command
  refine helse (haway "POWEROFF" "-pf" false) ?_
  refine helse h ?_
  refine helse h ?_
  refine helse hsuspend ?_
  refine helse h ?_
  refine helse (haway "DOWNLOAD" "-dl" true) ?_
  refine helse (haway "POWERCYCLE" "-pc" false) ?_
  refine helse (haway "POWEROFF" "-pf" false) ?_
  refine helse (haway "POWERON" "-pn" false) ?_
  exact helse hspawn h

include hget hset in
theorem Seat.AtWork.handlebreak (h : w.AtWork d init) (devout : ℤ) :
    (w.handlebreak d o devout).2.AtWork d init := by
  fun_induction Seat.handlebreak d o devout w with
  | case1 w looked s hinput => exact h.look
  | case2 w looked ch s₁ hinput rv w₂ hcommand =>
      have hnext : Seat.AtWork d init { looked with console := s₁.echo (ch &&& 0x7F) } := h.look
      have hw₂ := hnext.command hget hset o devout (ch &&& 0x7F)
      rwa [hcommand] at hw₂
  | case3 w looked ch s₁ hinput w₂ hcommand ih =>
      have hnext : Seat.AtWork d init { looked with console := s₁.echo (ch &&& 0x7F) } := h.look
      have hw₂ := hnext.command hget hset o devout (ch &&& 0x7F)
      rw [hcommand] at hw₂
      exact ih hw₂

include hget hset in
theorem Seat.AtWork.flush2netLoop (h : w.AtWork d init) (devout : ℤ) (start : ℕ) :
    (w.flush2netLoop d o devout start).2.AtWork d init := by
  fun_induction Seat.flush2netLoop d o devout start w with
  | case3 start w s hlt ch read hch sent hsent doubled hdoubled ih => exact ih h
  | case5 start w s hlt ch read hch hesc sent hsent broken hbroken =>
      have hnext : Seat.AtWork d init { w with console := sent.2 } := h
      exact hnext.handlebreak hget hset o devout
  | case6 start w s hlt ch read hch hesc sent hsent broken hbroken ih =>
      have hnext : Seat.AtWork d init { w with console := sent.2 } := h
      exact ih (hnext.handlebreak hget hset o devout)
  | case7 start w s hlt ch read hch hesc ih => exact ih h
  | _ => exact h

include hget hset in
theorem Seat.AtWork.flushdata (h : w.AtWork d init) (devout : ℤ) (buf : List Byte) :
    (w.flushdata d o devout buf).2.AtWork d init := by
  unfold Seat.flushdata
  split
  · exact h
  · have hnext : Seat.AtWork d init { w with console :=
        { w.console with buf := buf.map (· &&& 0x7F), curr := 0, gotInput := true } } := h
    exact hnext.flush2netLoop hget hset o devout 0

/-- The terminal when `main` has called `setTTY`. -/
def Seat.start (d : Desk) (s : State) (mode : TtyMode.State) : Seat :=
  ⟨s, Tty.setTTY d ⟨-1, mode, 0⟩, []⟩

include hget hset in
/-- **The terminal is the user's** whenever the console does not read keys, in every
session: a program, a file name and a suspension find the settings that were left last
before, command mode reads from their raw mode, the session ends in the raw mode of
those left last, and the `restoreTTY` behind it puts them back. -/
theorem terminal_restored {devnet flushc : ℤ} {s₀ : State} {savedttys : Fin TtyMode.nTty → Termios}
    {es : List Relay.Event} {s : Relay.State Seat}
    (hrun : Run (Relay.Step ⟨devnet, fun fd buf w => w.flushdata d o fd buf, flushc, true⟩)
      (Relay.start (Seat.start d s₀ (TtyMode.State.init init savedttys))) es s) :
    AllFit d init s.filter.seen ∧
      s.filter.tty.mode.term = (if d.isatty then (lastLeft d init s.filter.seen).raw
        else lastLeft d init s.filter.seen) ∧
      (s.filter.restoreTTY d).tty.mode.term = lastLeft d init s.filter.seen := by
  have hstart : Seat.AtWork d init (Seat.start d s₀ (TtyMode.State.init init savedttys)) := by
    refine ⟨atKeys_setTTY hget hset (.inl rfl) rfl rfl, fun before p behind hsplit => ?_⟩
    exact absurd hsplit (by simp [Seat.start])
  have hwork : s.filter.AtWork d init :=
    Relay.filter_invariant (fun fd buf w hw => hw.flushdata hget hset o fd buf) hrun hstart
  refine ⟨hwork.2, ?_, (hwork.restoreTTY hset).1.own⟩
  cases htty : d.isatty with
  | true => exact (hwork.1.raw htty).2.2
  | false => exact (hwork.1.other htty).2

end Settings

/-- A terminal whose calls succeed; who has it in between turns the echo off. -/
def quietDesk : Desk :=
  ⟨true, fun _ => true, fun _ => true, fun _ t => { t with lflag := t.lflag &&& ~~~TtyMode.echo }⟩

/-- A console whose calls succeed. -/
def plainOutside : Outside := ⟨fun _ n => n, fun _ => 0, none⟩

/-- A suspension, behind which the echo is off: so it is at the end. -/
theorem terminal_restored_suspend :
    ∃ s, Run (Relay.Step ⟨4, fun fd buf w => w.flushdata quietDesk plainOutside fd buf, 0, true⟩)
        (Relay.start (Seat.start quietDesk (State.start [])
          (TtyMode.State.init TtyMode.cooked fun _ => TtyMode.cooked)))
        [.selected false true, .read (some [0, 122, 99])] s ∧
      (s.filter.restoreTTY quietDesk).tty.mode.term =
        { TtyMode.cooked with lflag := TtyMode.cooked.lflag &&& ~~~TtyMode.echo } := by
  have hrun : ∃ s, Run (Relay.Step ⟨4, fun fd buf w =>
        w.flushdata quietDesk plainOutside fd buf, 0, true⟩)
        (Relay.start (Seat.start quietDesk (State.start [])
          (TtyMode.State.init TtyMode.cooked fun _ => TtyMode.cooked)))
        [.selected false true, .read (some [0, 122, 99])] s ∧
      lastLeft quietDesk TtyMode.cooked s.filter.seen =
        { TtyMode.cooked with lflag := TtyMode.cooked.lflag &&& ~~~TtyMode.echo } :=
    ⟨_, .cons rfl (.cons rfl (.nil _)), by decide +kernel⟩
  obtain ⟨s, hs, hlast⟩ := hrun
  exact ⟨s, hs, (terminal_restored (fun _ => rfl) (fun _ => rfl) _ hs).2.2.trans hlast⟩

end XinuConsole.Console
