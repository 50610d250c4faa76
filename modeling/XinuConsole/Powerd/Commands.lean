import XinuConsole.Lib.CString

/-!
The power daemon: `valid_command` of `lib/xinu-power.c`, the controller lines of
`lib/rpc.c`, and `init_device` and `execute_command` of `src/xinu-powerd.c`.

The daemon keeps the state of every outlet in the array `outlets` of
`NUM_OUTLETS` elements. An access outside the array is undefined in C; a
command that makes one has no result here.
-/

namespace XinuConsole.Powerd

open Lib

@[simp] def numOutlets : ℕ := 48
@[simp] def off : Byte := 0
@[simp] def on : Byte := 1
@[simp] def validCmdLen : ℕ := 3

/-! ### Commands -/

/-- `valid_command`; `is_numeric` is the digit test. -/
def validCommand (cmd : List Byte) : Bool :=
  if (cstr cmd).length ≠ validCmdLen then false
  else if strnequ cmd (text "off") validCmdLen then true
  else
    let c := cmd.headD 0
    if c = 117 ∨ c = 100 ∨ c = 114 then
      if isDigit (cmd.getD 1 0) && isDigit (cmd.getD 2 0) then
        let num := atoi (cmd.drop 1)
        1 ≤ num && num ≤ numOutlets
      else false
    else false

/-! ### The controller's line -/

/-- A call of `write` on the controller's descriptor and its result. -/
structure Write where
  line : List Byte
  rv : ℤ
  deriving DecidableEq

/-- The whole line went out. -/
def Write.Complete (w : Write) : Prop := w.rv = w.line.length

instance (w : Write) : Decidable w.Complete := inferInstanceAs (Decidable (_ = _))

/-- What the operating system answers during one command: the descriptor that
`OpenTTYLine` returns or -1, and the results of the writes in their order. -/
structure Answers where
  openTTYLine : ℤ
  write : ℕ → ℤ
  openTTYLine_ge : -1 ≤ openTTYLine

/-- `write( g_dev, line, strlen( line ) )`; a negative descriptor is refused. -/
def writeLine (gDev rv : ℤ) (line : List Byte) : Write := ⟨line, if gDev < 0 then -1 else rv⟩

def rpcAlloff (gDev rv : ℤ) : Write := writeLine gDev rv (text "off all\r\n")

def rpcOff (gDev rv num : ℤ) : Write :=
  writeLine gDev rv (text "off " ++ fmtD num ++ text "\r\n")

def rpcOn (gDev rv num : ℤ) : Write :=
  writeLine gDev rv (text "on " ++ fmtD num ++ text "\r\n")

/-- `rpc_reset`: two lines, a second apart. -/
def rpcReset (a : Answers) (gDev num : ℤ) : List Write :=
  [rpcOff gDev (a.write 0) num, rpcOn gDev (a.write 1) num]

/-! ### The daemon -/

/-- The static variables: `outlets` of the daemon and `g_dev` of the library. -/
structure State where
  outlets : CharArray numOutlets
  gDev : ℤ

/-- `outlets[ num ].state`. -/
def State.load (s : State) (num : ℤ) : Option Byte :=
  if 0 ≤ num then s.outlets.val[num.toNat]? else none

/-- `outlets[ num ].state = state`. -/
def State.store (s : State) (num : ℤ) (state : Byte) : Option State :=
  if 0 ≤ num ∧ num < numOutlets then some { s with outlets := s.outlets.set num.toNat state }
  else none

/-- `rpc_init`: the result, the daemon after it and the lines written. -/
def rpcInit (a : Answers) (s : State) : ℤ × State × List Write :=
  let s := { s with gDev := a.openTTYLine }
  if s.gDev = -1 then (-1, s, [])
  else
    let w := rpcAlloff s.gDev (a.write 0)
    (w.rv, s, [w])

/-- The array after the loop of `init_device`. -/
def clearedOutlets : CharArray numOutlets :=
  ⟨List.replicate numOutlets off, List.length_replicate⟩

def initDevice (a : Answers) (s : State) : ℤ × State × List Write :=
  rpcInit a { s with outlets := clearedOutlets }

/-- `execute_command`: the result, the daemon after it and the lines written;
nothing if it accesses `outlets` outside its elements. -/
def executeCommand (a : Answers) (s : State) (cmd : List Byte) : Option (ℤ × State × List Write) :=
  let num := atoi (cmd.drop 1)
  if strnequ (text "off") cmd 3 then some (1, (initDevice a s).2)
  else if strnequ (text "d") cmd 1 then do
    -- the off line is sent whatever the array says
    let s ← s.store num off
    some (1, s, [rpcOff s.gDev (a.write 0) num])
  else if strnequ (text "u") cmd 1 then do
    let state ← s.load num
    if state = on then some (1, s, [])
    else
      let s ← s.store num on
      some (1, s, [rpcOn s.gDev (a.write 0) num])
  else if strnequ (text "r") cmd 1 then do
    let state ← s.load num
    if state = on then some (1, s, rpcReset a s.gDev num)
    else
      let s ← s.store num on
      some (1, s, [rpcOn s.gDev (a.write 0) num])
  else some (-1, s, [])

/-! ### What a valid command is -/

/-- The four kinds of commands. -/
inductive Command
  | allOff
  | down (num : ℕ)
  | up (num : ℕ)
  | reset (num : ℕ)
  deriving DecidableEq

/-- The outlet a command names. -/
def Command.outlet : Command → Option ℕ
  | .allOff => none
  | .down num | .up num | .reset num => some num

/-- What a string that starts like a command stands for. -/
def parse (cmd : List Byte) : Option Command :=
  let num := (atoi (cmd.drop 1)).toNat
  if strnequ (text "off") cmd 3 then some .allOff
  else if strnequ (text "d") cmd 1 then some (.down num)
  else if strnequ (text "u") cmd 1 then some (.up num)
  else if strnequ (text "r") cmd 1 then some (.reset num)
  else none

/-- `execute_command` on the kinds of commands. -/
def Command.execute (a : Answers) (s : State) : Command → Option (ℤ × State × List Write)
  | .allOff => some (1, (initDevice a s).2)
  | .down num => (s.store num off).map fun s => (1, s, [rpcOff s.gDev (a.write 0) num])
  | .up num => (s.load num).bind fun state =>
      if state = on then some (1, s, [])
      else (s.store num on).map fun s => (1, s, [rpcOn s.gDev (a.write 0) num])
  | .reset num => (s.load num).bind fun state =>
      if state = on then some (1, s, rpcReset a s.gDev num)
      else (s.store num on).map fun s => (1, s, [rpcOn s.gDev (a.write 0) num])

theorem strnequ_one (c : Byte) (cmd : List Byte) :
    strnequ [c] cmd 1 = true ↔ cmd.headD 0 = c := by
  simp [strnequ, eq_comm]

/-- A valid command is `off` or names an outlet from 1 to `NUM_OUTLETS`. -/
theorem parse_of_valid {cmd : List Byte} (h : validCommand cmd = true) :
    ∃ c, parse cmd = some c ∧ ∀ num, c.outlet = some num →
      1 ≤ num ∧ num ≤ numOutlets ∧ atoi (cmd.drop 1) = num := by
  unfold validCommand at h
  split at h
  · exact absurd h (by simp)
  rw [strnequ_comm] at h
  unfold parse
  dsimp only at h ⊢
  split at h
  · next hoff => exact ⟨.allOff, if_pos hoff, by simp [Command.outlet]⟩
  next hoff =>
  have hoff : ¬strnequ (text "off") cmd 3 = true := hoff
  rw [if_neg hoff]
  split at h
  · next hc =>
    split at h
    · simp only [Bool.and_eq_true, decide_eq_true_eq] at h
      have key : ∀ num, some (atoi (cmd.drop 1)).toNat = some num →
          1 ≤ num ∧ num ≤ numOutlets ∧ atoi (cmd.drop 1) = num := by
        rintro num hnum
        obtain rfl := Option.some.inj hnum
        omega
      have hd := strnequ_one 100 cmd
      have hu := strnequ_one 117 cmd
      have hr := strnequ_one 114 cmd
      change strnequ (text "d") cmd 1 = true ↔ _ at hd
      change strnequ (text "u") cmd 1 = true ↔ _ at hu
      change strnequ (text "r") cmd 1 = true ↔ _ at hr
      rcases hc with hc | hc | hc
      · rw [if_neg (fun hx => absurd (hc.symm.trans (hd.mp hx)) (by decide)), if_pos (hu.mpr hc)]
        exact ⟨_, rfl, key⟩
      · rw [if_pos (hd.mpr hc)]
        exact ⟨_, rfl, key⟩
      · rw [if_neg (fun hx => absurd (hc.symm.trans (hd.mp hx)) (by decide)),
          if_neg (fun hx => absurd (hc.symm.trans (hu.mp hx)) (by decide)), if_pos (hr.mpr hc)]
        exact ⟨_, rfl, key⟩
    · exact absurd h (by simp)
  · exact absurd h (by simp)

/-- On a valid command the daemon does what its kind says. -/
theorem executeCommand_of_valid {cmd : List Byte} (h : validCommand cmd = true) :
    ∃ c, parse cmd = some c ∧ (∀ num, c.outlet = some num → 1 ≤ num ∧ num ≤ numOutlets) ∧
      ∀ a s, executeCommand a s cmd = c.execute a s := by
  obtain ⟨c, hc, hnum⟩ := parse_of_valid h
  refine ⟨c, hc, fun num hn => ⟨(hnum num hn).1, (hnum num hn).2.1⟩, fun a s => ?_⟩
  unfold parse at hc
  unfold executeCommand
  dsimp only at hc ⊢
  split at hc
  · next hoff =>
    obtain rfl := Option.some.inj hc
    rw [if_pos hoff]
    rfl
  next hoff =>
  rw [if_neg hoff]
  split at hc
  · next hd =>
    obtain rfl := Option.some.inj hc
    rw [if_pos hd]
    simp only [Command.execute, ← (hnum _ rfl).2.2]
    cases s.store _ off <;> rfl
  next hd =>
  rw [if_neg hd]
  split at hc
  · next hu =>
    obtain rfl := Option.some.inj hc
    rw [if_pos hu]
    simp only [Command.execute, ← (hnum _ rfl).2.2]
    show (s.load _).bind _ = (s.load _).bind _
    congr 1
    funext state
    split
    · rfl
    · cases s.store _ on <;> rfl
  next hu =>
  rw [if_neg hu]
  split at hc
  · next hr =>
    obtain rfl := Option.some.inj hc
    rw [if_pos hr]
    simp only [Command.execute, ← (hnum _ rfl).2.2]
    show (s.load _).bind _ = (s.load _).bind _
    congr 1
    funext state
    split
    · rfl
    · cases s.store _ on <;> rfl
  · exact absurd hc (by simp)

end XinuConsole.Powerd
