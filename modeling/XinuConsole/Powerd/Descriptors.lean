import XinuConsole.Lib.Run
import XinuConsole.Powerd.Success

/-!
The descriptors of the controller's line: `OpenTTYLine` of `lib/ttyutils.c` and
`rpc_init` of `lib/rpc.c`.

`OpenTTYLine` closes what it opened when it fails. `rpc_init` is called at the
start of the daemon and by every `off`, and stores the new descriptor in `g_dev`;
nothing closes the old one.
-/

namespace XinuConsole.Powerd

open Lib

/-- The answers to the calls of `OpenTTYLine`: the descriptor of `open`, if it
has one, and whether `tcgetattr` and `tcsetattr` succeed. -/
structure OpenAnswers where
  opened : Option ℕ
  tcgetattr : Bool
  tcsetattr : Bool

/-- `OpenTTYLine` where the descriptors `fds` of the line are open: its result
and those open after it. -/
def openTTYLine (o : OpenAnswers) (fds : List ℕ) : ℤ × List ℕ :=
  match o.opened with
  | none => (-1, fds)
  | some devfd =>
      let fds := devfd :: fds
      if o.tcgetattr = false then (-1, fds.erase devfd)
      else if o.tcsetattr = false then (-1, fds.erase devfd)
      else (devfd, fds)

theorem openTTYLine_ge (o : OpenAnswers) (fds : List ℕ) : -1 ≤ (openTTYLine o fds).1 := by
  unfold openTTYLine
  split
  · exact le_rfl
  · dsimp only
    split
    · exact le_rfl
    · split
      · exact le_rfl
      · exact (show (-1 : ℤ) ≤ 0 by norm_num).trans (Int.natCast_nonneg _)

/-- The daemon and the descriptors of the line that are open. -/
structure Holder where
  daemon : State
  fds : List ℕ

/-- One command: its string, and what the system answers while it is executed. -/
structure Order where
  cmd : List Byte
  tty : OpenAnswers
  write : ℕ → ℤ

namespace Holder

/-- The answers to the daemon, with the result of `OpenTTYLine` among them. -/
def answers (h : Holder) (o : Order) : Answers :=
  ⟨(openTTYLine o.tty h.fds).1, o.write, openTTYLine_ge _ _⟩

/-- `init_device`, with the descriptors. -/
def initDevice (h : Holder) (o : Order) : ℤ × Holder × List Write :=
  let r := Powerd.initDevice (h.answers o) h.daemon
  (r.1, ⟨r.2.1, (openTTYLine o.tty h.fds).2⟩, r.2.2)

/-- `execute_command`, with the descriptors. Only `off` opens the line. -/
def executeCommand (h : Holder) (o : Order) : Option (ℤ × Holder × List Write) :=
  if strnequ (text "off") o.cmd 3 then some (1, (h.initDevice o).2)
  else (Powerd.executeCommand (h.answers o) h.daemon o.cmd).map fun r =>
    (r.1, ⟨r.2.1, h.fds⟩, r.2.2)

/-- The daemon right after its start: `main` goes on where `init_device` does not
answer -1. -/
def Started (h : Holder) : Prop :=
  ∃ h₀ : Holder, h₀.fds = [] ∧ ∃ o, (h₀.initDevice o).1 ≠ -1 ∧ h = (h₀.initDevice o).2.1

/-- An accepted command is executed. `open` never answers a descriptor that is open. -/
def Serves (h : Holder) (o : Order) (h' : Holder) : Prop :=
  validCommand o.cmd = true ∧ (∀ fd ∈ o.tty.opened, fd ∉ h.fds) ∧
    ∃ rv ws, h.executeCommand o = some (rv, h', ws)

end Holder

/-- The order opens the line again. -/
def Order.Reopens (o : Order) : Prop :=
  parse o.cmd = some .allOff ∧ o.tty.opened.isSome ∧ o.tty.tcgetattr = true ∧ o.tty.tcsetattr = true

instance (o : Order) : Decidable o.Reopens := inferInstanceAs (Decidable (_ ∧ _ ∧ _ ∧ _))

/-! ### One call -/

theorem openTTYLine_of_success {o : OpenAnswers} (fds : List ℕ) {devfd : ℕ} (h : o.opened = some devfd)
    (hget : o.tcgetattr = true) (hset : o.tcsetattr = true) :
    openTTYLine o fds = ((devfd : ℤ), devfd :: fds) := by
  simp [openTTYLine, h, hget, hset]

/-- A call that fails leaves the descriptors as they were. -/
theorem openTTYLine_of_failure {o : OpenAnswers} (fds : List ℕ)
    (h : ¬(o.opened.isSome ∧ o.tcgetattr = true ∧ o.tcsetattr = true)) :
    openTTYLine o fds = (-1, fds) := by
  unfold openTTYLine
  cases hopen : o.opened with
  | none => rfl
  | some devfd =>
      dsimp only
      split
      · rw [List.erase_cons_head]
      · next hget =>
          split
          · rw [List.erase_cons_head]
          · next hset =>
              refine absurd ⟨by rw [hopen]; rfl, ?_, ?_⟩ h
              · simpa using hget
              · simpa using hset

namespace Holder

/-- The descriptors do not matter to what the daemon does. -/
theorem executeCommand_daemon (h : Holder) (o : Order) :
    (h.executeCommand o).map (fun r => (r.1, r.2.1.daemon, r.2.2)) =
      Powerd.executeCommand (h.answers o) h.daemon o.cmd := by
  unfold executeCommand Powerd.executeCommand
  dsimp only
  split
  · rfl
  · rw [Option.map_map]
    exact congrFun Option.map_id _

theorem fds_of_executeCommand {h h' : Holder} {o : Order} {rv : ℤ} {ws : List Write}
    (hexec : h.executeCommand o = some (rv, h', ws)) :
    h'.fds = if strnequ (text "off") o.cmd 3 then (openTTYLine o.tty h.fds).2 else h.fds := by
  unfold executeCommand at hexec
  split at hexec
  · next hoff =>
      rw [if_pos hoff]
      cases hexec
      rfl
  · next hoff =>
      rw [if_neg hoff]
      obtain ⟨r, -, hr⟩ := Option.map_eq_some_iff.mp hexec
      cases hr
      rfl

theorem parse_eq_allOff_iff (cmd : List Byte) :
    parse cmd = some .allOff ↔ strnequ (text "off") cmd 3 = true := by
  unfold parse
  dsimp only
  split
  · next hoff => exact iff_of_true rfl hoff
  · next hoff =>
      refine iff_of_false ?_ hoff
      repeat' split
      all_goals simp

/-- An order opens one more descriptor or leaves them alone, and closes none. -/
theorem Serves.length_fds {h h' : Holder} {o : Order} (hs : h.Serves o h') :
    h'.fds.length = h.fds.length + if o.Reopens then 1 else 0 := by
  obtain ⟨-, -, rv, ws, hexec⟩ := hs
  rw [fds_of_executeCommand hexec]
  by_cases hoff : strnequ (text "off") o.cmd 3 = true
  · rw [if_pos hoff]
    by_cases hopen : o.tty.opened.isSome ∧ o.tty.tcgetattr = true ∧ o.tty.tcsetattr = true
    · obtain ⟨devfd, hdevfd⟩ := Option.isSome_iff_exists.mp hopen.1
      rw [openTTYLine_of_success h.fds hdevfd hopen.2.1 hopen.2.2,
        if_pos (show o.Reopens from ⟨(parse_eq_allOff_iff _).mpr hoff, hopen⟩)]
      rfl
    · rw [openTTYLine_of_failure h.fds hopen, if_neg fun hr => hopen hr.2, add_zero]
  · rw [if_neg hoff, if_neg fun hr => hoff ((parse_eq_allOff_iff _).mp hr.1), add_zero]

/-- The start leaves one descriptor open. -/
theorem Started.length_fds {h : Holder} (hs : h.Started) : h.fds.length = 1 := by
  obtain ⟨h₀, hnone, o, hrv, rfl⟩ := hs
  show (openTTYLine o.tty h₀.fds).2.length = 1
  by_cases hopen : o.tty.opened.isSome ∧ o.tty.tcgetattr = true ∧ o.tty.tcsetattr = true
  · obtain ⟨devfd, hdevfd⟩ := Option.isSome_iff_exists.mp hopen.1
    rw [openTTYLine_of_success h₀.fds hdevfd hopen.2.1 hopen.2.2, hnone]
    rfl
  · have hfailed : (h₀.answers o).openTTYLine = -1 := by
      show (openTTYLine o.tty h₀.fds).1 = -1
      rw [openTTYLine_of_failure h₀.fds hopen]
    refine absurd ?_ hrv
    show (rpcInit (h₀.answers o) _).1 = -1
    rw [rpcInit]
    dsimp only
    rw [if_pos hfailed]

/-- The descriptors open are those of the start and of every order that opened
the line again. -/
theorem length_fds_of_run {h h' : Holder} {os : List Order} (hrun : Run Serves h os h') :
    h'.fds.length = h.fds.length + (os.filter fun o => decide o.Reopens).length := by
  induction hrun with
  | nil => rfl
  | @cons h h₁ h' o os hs _ ih =>
      rw [ih, hs.length_fds, List.filter_cons]
      by_cases ho : o.Reopens
      · simp [ho]
        omega
      · simp [ho]

end Holder

/-- **The descriptors of the controller's line.** From the start on the daemon
holds one more for every `off` that opened the line again, so it holds at most
one exactly as long as no `off` does. -/
theorem descriptors_iff {h h' : Holder} {os : List Order} (hstart : h.Started)
    (hrun : Run Holder.Serves h os h') :
    h'.fds.length = 1 + (os.filter fun o => decide o.Reopens).length ∧
      (h'.fds.length ≤ 1 ↔ ∀ o ∈ os, ¬o.Reopens) := by
  have hlen := Holder.length_fds_of_run hrun
  rw [hstart.length_fds] at hlen
  refine ⟨hlen, ?_⟩
  have hnone : 1 + (os.filter fun o => decide o.Reopens).length ≤ 1 ↔
      (os.filter fun o => decide o.Reopens) = [] := by
    rw [← List.length_eq_zero_iff]
    omega
  rw [hlen, hnone, List.filter_eq_nil_iff]
  simp

/-- The daemon after a start in which the line had the descriptor 3. -/
def startedHolder : Holder := ⟨⟨clearedOutlets, 3⟩, [3]⟩

theorem startedHolder_started : startedHolder.Started :=
  ⟨⟨⟨clearedOutlets, -1⟩, []⟩, rfl, ⟨text "off", ⟨some 3, true, true⟩, fun _ => 9⟩, by decide, rfl⟩

/-- An `off` in which `open` fails, and then `u05`. -/
theorem descriptors_off_failed :
    ∃ h', Run Holder.Serves startedHolder [⟨text "off", ⟨none, true, true⟩, fun _ => 9⟩,
      ⟨text "u05", ⟨none, true, true⟩, fun _ => 6⟩] h' ∧ h'.fds.length ≤ 1 := by
  have hrun : Run Holder.Serves startedHolder [⟨text "off", ⟨none, true, true⟩, fun _ => 9⟩,
      ⟨text "u05", ⟨none, true, true⟩, fun _ => 6⟩] _ :=
    .cons ⟨by decide, by simp, _, _, rfl⟩ (.cons ⟨by decide, by simp, _, _, rfl⟩ (.nil _))
  refine ⟨_, hrun, (descriptors_iff startedHolder_started hrun).2.mpr ?_⟩
  decide

/-- Two `off` commands with a working line, and three descriptors of it are open. -/
theorem off_leaks_descriptors :
    startedHolder.Started ∧ ∃ h', Run Holder.Serves startedHolder
      [⟨text "off", ⟨some 4, true, true⟩, fun _ => 9⟩,
        ⟨text "off", ⟨some 5, true, true⟩, fun _ => 9⟩] h' ∧ h'.fds = [5, 4, 3] := by
  refine ⟨startedHolder_started, _,
    .cons ⟨by decide, ?_, _, _, rfl⟩ (.cons ⟨by decide, ?_, _, _, rfl⟩ (.nil _)), rfl⟩
  · intro fd hfd
    obtain rfl := Option.some.inj hfd
    decide
  · intro fd hfd
    obtain rfl := Option.some.inj hfd
    decide

end XinuConsole.Powerd
