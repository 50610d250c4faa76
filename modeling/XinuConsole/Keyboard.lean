import XinuConsole.Console

/-!
The keyboard of a console session, read in any pieces.

The session loop reads a chunk and filters it; command mode reads on behind the
chunk byte by byte; a file name is read through the C library, which does not
see the rest of the chunk. `reading` is what a stream means that asks for no file
name while there are bytes behind the command. `keyboard_chunking_iff` says that
these are the streams that mean the same in any pieces.
-/

namespace XinuConsole.Console

open Lib Connectto

/-! ### What every part of the filter keeps -/

/-- A property of the state that every step of the filter keeps. -/
structure Kept (o : Outside) (devout : ℤ) (I : State → Prop) : Prop where
  load : ∀ s buf, I s → I { s with buf := buf, curr := 0, gotInput := true }
  advance : ∀ s, I s → I { s with curr := s.curr + 1 }
  input : ∀ s, I s → I (getInput s).2
  write : ∀ s bytes, I s → I (s.issueWrite o devout bytes).2
  command : ∀ s ch, I s → I (command o devout ch (s.echo ch)).2

section Kept

variable {o : Outside} {devout : ℤ} {I : State → Prop} (hI : Kept o devout I)
include hI

theorem Kept.through_handlebreak {s : State} (hs : I s) : I (handlebreak o devout s).2 := by
  fun_induction handlebreak o devout s with
  | case1 s s₁ h =>
      have := hI.input s hs
      rwa [h] at this
  | case2 s ch s₁ h rv s₂ hc =>
      have hin := hI.input s hs
      rw [h] at hin
      have := hI.command s₁ (ch &&& 0x7F) hin
      rwa [hc] at this
  | case3 s ch s₁ h s₂ hc ih =>
      have hin := hI.input s hs
      rw [h] at hin
      have hcmd := hI.command s₁ (ch &&& 0x7F) hin
      rw [hc] at hcmd
      exact ih hcmd

theorem Kept.through_sendPending {s : State} (hs : I s) (start clen : ℕ) :
    I (s.sendPending o devout start clen).2 := by
  unfold State.sendPending
  split
  · exact hI.write s _ hs
  · exact hs

theorem Kept.through_loop {start : ℕ} {s : State} (hs : I s) :
    I (flush2netLoop o devout start s).2 := by
  fun_induction flush2netLoop o devout start s with
  | case1 start s | case8 start s | case9 start s => first
    | exact hI.write _ _ (hI.advance s hs)
    | exact hI.write _ _ hs
  | case2 start s => exact hI.write _ _ (hI.write _ _ (hI.advance s hs))
  | case3 start s _ _ _ _ _ _ _ _ ih => exact ih (hI.write _ _ (hI.write _ _ (hI.advance s hs)))
  | case4 start s => exact hI.through_sendPending (hI.advance s hs) _ _
  | case5 start s =>
      exact hI.through_handlebreak (hI.through_sendPending (hI.advance s hs) _ _)
  | case6 start s _ _ _ _ _ _ _ _ _ ih =>
      exact ih (hI.through_handlebreak (hI.through_sendPending (hI.advance s hs) _ _))
  | case7 start s _ _ _ _ _ ih => exact ih (hI.advance s hs)
  | case10 => exact hs

theorem Kept.through_flushdata {s : State} (hs : I s) (buf : List Byte) :
    I (flushdata o false devout buf s).2 := by
  rw [flushdata, if_neg (by simp)]
  split
  · exact hI.write s _ hs
  · exact hI.through_loop (hI.load s _ hs)

end Kept

/-! ### Commands -/

/-- The commands that read a file name. -/
def AsksFile (ch : Byte) : Prop := ch = 100 ∨ ch = 115

instance (ch : Byte) : Decidable (AsksFile ch) := inferInstanceAs (Decidable (_ ∨ _))

/-- The file that a program was started with. -/
def Started.file : Started → Option (List Byte)
  | .subconnect _ _ file => file
  | .spawn file => some file

/-- The state after a line was read for a file name. -/
def State.lineRead (s : State) : State :=
  let got := fgets (maxFilename - 2) s.stdio s.pieces
  { s with stdio := got.2.1, pieces := got.2.2 }

/-- What a command does that reads no file name: what is seen of it, and where
it leads: back to the data, on in command mode, or out of the session. -/
structure Act where
  effects : List Call
  next : Option Bool

/-- The program of a power command; if its status is 0 the data goes on. -/
def power (status : ℤ) (cls ext : String) (other : Option Bool) : Act :=
  ⟨[.run (.subconnect (text cls) (text ext) none) status], if status = 0 then some false else other⟩

def act (status : ℤ) (devout : ℤ) (rv : ℤ) (ch : Byte) : Act :=
  if ch = 4 ∨ ch = 113 then power status "POWEROFF" "-pf" none
  else if ch = 120 then ⟨[], none⟩
  else if ch = 99 then ⟨[], some false⟩
  else if ch = 122 then ⟨[.suspend], some true⟩
  else if ch = 98 then ⟨[.write devout (text "\\b") rv], some false⟩
  else if ch = 112 then power status "POWERCYCLE" "-pc" (some true)
  else if ch = 102 then power status "POWEROFF" "-pf" (some true)
  else if ch = 110 then power status "POWERON" "-pn" (some true)
  else ⟨[], some true⟩

/-- The result of `handlebreak` after a command, if it returns. -/
def Act.result (a : Act) : Option ℤ :=
  match a.next with
  | none => some 0
  | some false => some 1
  | some true => none

section Commands

variable (o : Outside) (devout : ℤ)

theorem command_act {ch : Byte} (hch : ¬AsksFile ch) (s : State) :
    let a := act (o.status (programs s.calls).length) devout (o.write s.calls.length 2) ch
    command o devout ch s = (a.result, { s with calls := s.calls ++ a.effects }) := by
  have hd : ¬ch = 100 := fun h => hch (.inl h)
  have hs : ¬ch = 115 := fun h => hch (.inr h)
  have hpower : ∀ (cls ext : String) (other : Option Bool),
      let a := power (o.status (programs s.calls).length) cls ext other
      (if (subconnect o cls ext false s).1 = 0 then some 1 else Act.result ⟨[], other⟩,
        (subconnect o cls ext false s).2) =
        (a.result, { s with calls := s.calls ++ a.effects }) := by
    intro cls ext other
    simp only [subconnect, Bool.false_eq_true, if_false, State.issueRun, power]
    split <;> rfl
  have hsame : ∀ next, (Act.result ⟨[], next⟩, s) =
      (Act.result ⟨[], next⟩, { s with calls := s.calls ++ [] }) := by
    intro next
    rw [List.append_nil]
  have helse {c : Prop} [Decidable c] {x y : Option ℤ × State} {a b : Act}
      (hx : x = (a.result, { s with calls := s.calls ++ a.effects }))
      (hy : y = (b.result, { s with calls := s.calls ++ b.effects })) :
      (if c then x else y) = ((if c then a else b).result,
        { s with calls := s.calls ++ (if c then a else b).effects }) := by
    split
    · exact hx
    · exact hy
  unfold command act
  refine helse (hpower "POWEROFF" "-pf" none) ?_
  refine helse (hsame none) ?_
  refine helse (hsame (some false)) ?_
  refine helse rfl ?_
  refine helse rfl ?_
  rw [if_neg hd]
  refine helse (hpower "POWERCYCLE" "-pc" (some true)) ?_
  refine helse (hpower "POWEROFF" "-pf" (some true)) ?_
  refine helse (hpower "POWERON" "-pn" (some true)) ?_
  rw [if_neg hs]
  exact hsame (some true)

/-- Reading a file name reads a line. Where there is none there is no name. -/
theorem getFilename_eq (last : List Byte) (env : Option (List Byte)) (defFile : List Byte)
    (s : State) :
    ∃ name, getFilename last env defFile s = (name, s.lineRead) ∧
      ((fgets (maxFilename - 2) s.stdio s.pieces).1 = [] → name = none) ∧
      ((fgets (maxFilename - 2) s.stdio s.pieces).1 ≠ [] → presetFilename last env defFile ≠ [] →
        name ≠ none) := by
  rw [getFilename, getInputString]
  by_cases hline : (fgets (maxFilename - 2) s.stdio s.pieces).1 = []
  · rw [if_pos hline]
    exact ⟨none, rfl, fun _ => rfl, fun h => absurd hline h⟩
  · rw [if_neg hline]
    dsimp only
    generalize (if (cstr (fgets (maxFilename - 2) s.stdio s.pieces).1).getLast? = some 10 then
      (cstr (fgets (maxFilename - 2) s.stdio s.pieces).1).dropLast
      else cstr (fgets (maxFilename - 2) s.stdio s.pieces).1) = typed
    cases typed with
    | nil =>
        by_cases hpreset : presetFilename last env defFile = []
        · exact ⟨none, if_pos hpreset, fun _ => rfl, fun _ h => absurd hpreset h⟩
        · exact ⟨_, if_neg hpreset, fun h => absurd h hline, fun _ _ => by simp⟩
    | cons b typed => exact ⟨_, rfl, fun h => absurd h hline, fun _ _ => by simp⟩

/-- A command that asks for a file name reads a line. With a name it starts a
program on that file; where there is no line it does nothing else. -/
theorem command_file {ch : Byte} (hch : AsksFile ch) (s : State) :
    (command o devout ch s = (none, s.lineRead) ∧
      ((fgets (maxFilename - 2) s.stdio s.pieces).1 = [] ∨ o.envFilename ≠ none)) ∨
    (fgets (maxFilename - 2) s.stdio s.pieces).1 ≠ [] ∧
      ∃ rv program status download spawn, program.file ≠ none ∧
        command o devout ch s = (rv, { s.lineRead with
          lastDownload := download, lastSpawn := spawn,
          calls := s.calls ++ [.run program status] }) := by
  have hpreset : ∀ last, presetFilename last none (text "a.out") ≠ [] := by
    intro last
    unfold presetFilename
    split
    · assumption
    · decide
  rcases hch with rfl | rfl
  · obtain ⟨name, hname, hnone, hsome⟩ :=
      getFilename_eq s.lastDownload o.envFilename (text "a.out") s
    have hcommand : command o devout 100 s =
        ((if (subconnect o "DOWNLOAD" "-dl" true s).1 = 0 then some 1 else none),
          (subconnect o "DOWNLOAD" "-dl" true s).2) := rfl
    rw [hcommand, subconnect, if_pos rfl, hname]
    cases name with
    | none =>
        refine .inl ⟨rfl, ?_⟩
        by_contra hor
        obtain ⟨hline, henv⟩ := not_or.mp hor
        rw [not_not.mp henv] at hsome
        exact hsome hline (hpreset _) rfl
    | some file =>
        refine .inr ⟨fun hline => absurd (hnone hline) (by simp), ?_⟩
        exact ⟨_, .subconnect (text "DOWNLOAD") (text "-dl") (some file), _, file, s.lastSpawn,
          by simp [Started.file], rfl⟩
  · obtain ⟨name, hname, hnone, hsome⟩ := getFilename_eq s.lastSpawn none (text "a.out") s
    have hcommand : command o devout 115 s = (none, (spawnconnect o s).2) := rfl
    rw [hcommand, spawnconnect, hname]
    cases name with
    | none =>
        refine .inl ⟨rfl, .inl ?_⟩
        by_contra hline
        exact hsome hline (hpreset _) rfl
    | some file =>
        refine .inr ⟨fun hline => absurd (hnone hline) (by simp), ?_⟩
        exact ⟨_, .spawn file, _, s.lastDownload, file, by simp [Started.file], rfl⟩

end Commands

/-! ### The session loop -/

/-- A bound on the reads that the pieces are good for. -/
def weight (pieces : List (List Byte)) : ℕ := (pieces.map fun p => p.length + 1).sum

theorem weight_getInput (s : State) : weight (getInput s).2.pieces ≤ weight s.pieces := by
  unfold getInput
  split
  · exact Nat.le_refl _
  · split
    · exact Nat.le_refl _
    all_goals
      next hp => simp [weight, hp]

theorem weight_fgets (n : ℕ) (stdio : List Byte) (pieces : List (List Byte)) :
    weight (fgets n stdio pieces).2.2 ≤ weight pieces := by
  induction pieces generalizing n stdio with
  | nil => exact Nat.le_refl _
  | cons p ps ih =>
      unfold fgets
      dsimp only
      have hps : weight ps ≤ weight (p :: ps) := by simp [weight]
      split
      · exact Nat.le_refl _
      split
      · exact hps
      · exact (ih _ _).trans hps

variable (o : Outside) (devout : ℤ)

theorem kept_weight (n : ℕ) : Kept o devout fun s => weight s.pieces ≤ n where
  load _ _ hs := hs
  advance _ hs := hs
  input s hs := (weight_getInput s).trans hs
  write _ _ hs := hs
  command s ch hs := by
    have hline : weight (s.echo ch).lineRead.pieces ≤ n := (weight_fgets _ _ _).trans hs
    by_cases hch : AsksFile ch
    · rcases command_file o devout hch (s.echo ch) with
        ⟨hc, -⟩ | ⟨-, rv, program, status, download, spawn, -, hc⟩
      · rw [hc]
        exact hline
      · rw [hc]
        exact hline
    · rw [command_act o devout hch]
      exact hs

/-- The loop of `connectto` over what comes from the keyboard: the state at the
end of the input or of the session. A piece is what one read returns; one that is
longer than the 4096 bytes of the buffer is not cut. -/
def keyboard (s : State) : State :=
  match _h : s.pieces with
  | [] => s
  | p :: ps =>
    let r := Connectto.flushdata (flushdata o false devout) (some p) { s with pieces := ps }
    if r.1 ≤ 0 then r.2 else keyboard r.2
termination_by weight s.pieces
decreasing_by
  have hps : weight ps < weight s.pieces := by
    rw [_h]
    simp [weight]
  refine lt_of_le_of_lt ?_ hps
  cases p with
  | nil => exact Nat.le_refl _
  | cons b p =>
      rw [flushdata_state]
      exact (kept_weight o devout (weight ps)).through_flushdata (Nat.le_refl _) (b :: p)

theorem Kept.through_round {I : State → Prop} (hI : Kept o devout I) {s : State} (hs : I s)
    (p : List Byte) : I (Connectto.flushdata (flushdata o false devout) (some p) s).2 := by
  cases p with
  | nil => exact hs
  | cons b p =>
      rw [flushdata_state]
      exact hI.through_flushdata hs _

theorem Kept.through_keyboard {I : State → Prop} (hI : Kept o devout I)
    (hpieces : ∀ s p ps, I s → s.pieces = p :: ps → I { s with pieces := ps }) {s : State}
    (hs : I s) : I (keyboard o devout s) := by
  fun_induction keyboard o devout s with
  | case1 => exact hs
  | case2 s p ps hp r hend => exact hI.through_round o devout (hpieces s p ps hs hp) p
  | case3 s p ps hp r hgo ih => exact ih (hI.through_round o devout (hpieces s p ps hs hp) p)

/-- The calls that were made stay made. -/
theorem kept_calls (calls : List Call) : Kept o devout fun s => calls <+: s.calls where
  load _ _ hs := hs
  advance _ hs := hs
  input s hs := by
    unfold getInput
    split
    · exact hs
    · split <;> exact hs
  write _ _ hs := hs.trans (List.prefix_append _ _)
  command s ch hs := by
    have hecho : calls <+: (s.echo ch).calls := hs.trans (List.prefix_append _ _)
    by_cases hch : AsksFile ch
    · rcases command_file o devout hch (s.echo ch) with
        ⟨hc, -⟩ | ⟨-, rv, program, status, download, spawn, -, hc⟩
      · rw [hc]
        exact hecho
      · rw [hc]
        exact hecho.trans (List.prefix_append _ _)
    · rw [command_act o devout hch]
      exact hecho.trans (List.prefix_append _ _)

/-- A call that the filter makes: what it writes goes to its device. -/
inductive Made (o : Outside) (devout : ℤ) : Call → Prop
  | write (bytes : List Byte) (k : ℕ) : Made o devout (.write devout bytes (o.write k bytes.length))
  | echo (ch : Byte) : Made o devout (.echo ch)
  | run (program : Started) (status : ℤ) : Made o devout (.run program status)
  | suspend : Made o devout .suspend

theorem made_act (status : ℤ) (k : ℕ) (ch : Byte) :
    ∀ c ∈ (act status devout (o.write k 2) ch).effects, Made o devout c := by
  have hpower : ∀ cls ext other, ∀ c ∈ (power status cls ext other).effects, Made o devout c := by
    intro cls ext other c hc
    obtain rfl := List.mem_singleton.mp hc
    exact .run _ _
  have hnone : ∀ c ∈ ([] : List Call), Made o devout c := by simp
  have hone {c : Call} (h : Made o devout c) : ∀ c' ∈ [c], Made o devout c' := by
    simpa using h
  unfold act
  repeat' split
  all_goals first
    | exact hpower _ _ _
    | exact hnone
    | exact hone .suspend
    | exact hone (.write (text "\\b") k)

/-- The filter adds calls of its own only. -/
theorem kept_made (calls : List Call) :
    Kept o devout fun s => ∃ more, s.calls = calls ++ more ∧ ∀ c ∈ more, Made o devout c := by
  have hadd {before after : List Call}
      (hbefore : ∃ more, before = calls ++ more ∧ ∀ c ∈ more, Made o devout c)
      (hafter : ∀ c ∈ after, Made o devout c) :
      ∃ more, before ++ after = calls ++ more ∧ ∀ c ∈ more, Made o devout c := by
    obtain ⟨more, hcalls, hmore⟩ := hbefore
    refine ⟨more ++ after, by rw [hcalls, List.append_assoc], fun c hc => ?_⟩
    exact (List.mem_append.mp hc).elim (hmore c) (hafter c)
  have hone {c : Call} (h : Made o devout c) : ∀ c' ∈ [c], Made o devout c' := by
    simpa using h
  refine ⟨fun _ _ hs => hs, fun _ hs => hs, fun s hs => ?_, fun s bytes hs => ?_, fun s ch hs => ?_⟩
  · unfold getInput
    split
    · exact hs
    · split <;> exact hs
  · exact hadd hs (hone (.write bytes _))
  · have hecho := hadd hs (hone (.echo ch))
    by_cases hch : AsksFile ch
    · rcases command_file o devout hch (s.echo ch) with
        ⟨hc, -⟩ | ⟨-, rv, program, status, download, spawn, -, hc⟩
      · rw [hc]
        exact hecho
      · rw [hc]
        exact hadd hecho (hone (.run program status))
    · rw [command_act o devout hch]
      exact hadd hecho (made_act o devout _ _ ch)

/-- No program was started with a file. -/
def NoFile (calls : List Call) : Prop := ∀ program ∈ programs calls, program.file = none

@[simp] theorem programs_append (calls more : List Call) :
    programs (calls ++ more) = programs calls ++ programs more := List.filterMap_append

@[simp] theorem programs_echo (s : State) (ch : Byte) :
    programs (s.echo ch).calls = programs s.calls := by
  simp [State.echo, programs]

theorem NoFile.append {calls more : List Call} (h : NoFile calls) (hmore : NoFile more) :
    NoFile (calls ++ more) := by
  intro program hp
  rw [programs_append, List.mem_append] at hp
  exact hp.elim (h program) (hmore program)

theorem NoFile.of_prefix {calls more : List Call} (h : NoFile more) (hle : calls <+: more) :
    NoFile calls := by
  obtain ⟨rest, rfl⟩ := hle
  intro program hp
  exact h program (by simp [hp])

theorem noFile_act (status rv : ℤ) (ch : Byte) : NoFile (act status devout rv ch).effects := by
  have hpower : ∀ cls ext other, NoFile (power status cls ext other).effects := by
    intro cls ext other program hp
    obtain rfl := List.mem_singleton.mp hp
    rfl
  have hnone : ∀ program ∈ ([] : List Started), program.file = none := by simp
  unfold act
  repeat' split
  all_goals first
    | exact hpower _ _ _
    | exact hnone

/-- With nothing left to read there is no file name. -/
theorem kept_noFile : Kept o devout fun s => s.pieces = [] ∧ s.stdio = [] ∧ NoFile s.calls where
  load _ _ hs := hs
  advance _ hs := hs
  input s hs := by
    obtain ⟨hpieces, hstdio, hfile⟩ := hs
    unfold getInput
    split
    · exact ⟨hpieces, hstdio, hfile⟩
    · rw [hpieces]
      exact ⟨hpieces, hstdio, hfile⟩
  write s bytes hs := ⟨hs.1, hs.2.1, hs.2.2.append (by simp [NoFile, programs])⟩
  command s ch hs := by
    obtain ⟨hpieces, hstdio, hfile⟩ := hs
    have hecho : NoFile (s.echo ch).calls := by
      intro program hp
      rw [programs_echo] at hp
      exact hfile program hp
    by_cases hch : AsksFile ch
    · have hline : fgets (maxFilename - 2) (s.echo ch).stdio (s.echo ch).pieces = ([], [], []) := by
        show fgets (maxFilename - 2) s.stdio s.pieces = ([], [], [])
        rw [hpieces, hstdio]
        rfl
      rcases command_file o devout hch (s.echo ch) with ⟨hc, -⟩ | ⟨hne, -⟩
      · rw [hc]
        refine ⟨?_, ?_, hecho⟩
        · rw [State.lineRead, hline]
        · rw [State.lineRead, hline]
      · rw [hline] at hne
        exact absurd rfl hne
    · rw [command_act o devout hch]
      exact ⟨hpieces, hstdio, hecho.append (noFile_act devout _ _ ch)⟩

/-! ### What a stream means -/

/-- What is seen of a session: bytes on the network, commands and programs. -/
inductive Seen
  | sent (b : Byte)
  | command (ch : Byte)
  | run (program : Started)
  | suspend
  deriving DecidableEq

def Call.seen : Call → List Seen
  | .write _ bytes rv => (bytes.take rv.toNat).map .sent
  | .echo ch => [.command ch]
  | .run program _ => [.run program]
  | .suspend => [.suspend]

def seen (calls : List Call) : List Seen := calls.flatMap Call.seen

@[simp] theorem seen_append (calls more : List Call) : seen (calls ++ more) = seen calls ++ seen more :=
  List.flatMap_append

@[simp] theorem seen_echo (s : State) (ch : Byte) :
    seen (s.echo ch).calls = seen s.calls ++ [.command ch] := seen_append _ _

/-- What the bytes mean, as data or in command mode, if `k` programs were
started before: what is seen up to the first command that asks for a file name,
and whether there is such a command with a byte behind it. -/
def reading (status : ℕ → ℤ) (devout : ℤ) : Bool → ℕ → List Byte → List Seen × Bool
  | _, _, [] => ([], false)
  | false, k, b :: bs =>
      let sent : List Seen × Bool :=
        if b = 92 then ([.sent 92, .sent 92], false)
        else if b = escCharacter then ([], true)
        else ([.sent b], false)
      let rest := reading status devout sent.2 k bs
      (sent.1 ++ rest.1, rest.2)
  | true, k, ch :: bs =>
      if AsksFile ch then ([.command ch], bs ≠ [])
      else
        let a := act (status k) devout 2 ch
        match a.next with
        | none => (.command ch :: seen a.effects, false)
        | some mode =>
          let rest := reading status devout mode (k + (programs a.effects).length) bs
          (.command ch :: seen a.effects ++ rest.1, rest.2)

/-- The bytes behind the cursor, in seven bits. -/
def State.ahead (s : State) : List Byte := (s.buf.drop s.curr ++ s.pieces.flatten).map (· &&& 0x7F)

section Meaning

variable (o : Outside) (devout : ℤ)

/-- What the bytes behind the cursor mean. -/
def State.reading (s : State) (mode : Bool) : List Seen × Bool :=
  Console.reading o.status devout mode (programs s.calls).length s.ahead

/-- What will have been seen at the end, if `pending` is not sent yet. -/
def State.predicted (s : State) (mode : Bool) (pending : List Byte) : List Seen :=
  seen s.calls ++ pending.map .sent ++ (s.reading o devout mode).1

end Meaning

/-- No line of the library's is left over, and no read returns nothing. -/
structure Sound (s : State) : Prop where
  stdio : s.stdio = []
  pieces : ∀ p ∈ s.pieces, p ≠ []

theorem Sound.nil_of_ahead {s : State} (hs : Sound s) (h : s.ahead = []) :
    s.buf.drop s.curr = [] ∧ s.pieces = [] := by
  obtain ⟨hbuf, hflat⟩ := List.append_eq_nil_iff.mp (List.map_eq_nil_iff.mp h)
  refine ⟨hbuf, List.eq_nil_iff_forall_not_mem.mpr fun p hp => ?_⟩
  exact hs.pieces p hp (List.flatten_eq_nil_iff.mp hflat p hp)

theorem Sound.echo {s : State} (hs : Sound s) (ch : Byte) : Sound (s.echo ch) := ⟨hs.stdio, hs.pieces⟩

theorem lineRead_of_nil {s : State} (hs : Sound s) (hp : s.pieces = []) : s.lineRead = s := by
  obtain ⟨buf, curr, stdio, pieces, last, spawn, got, calls⟩ := s
  obtain rfl : stdio = [] := hs.stdio
  obtain rfl : pieces = [] := hp
  rfl

/-- `getInput` takes the first byte ahead. -/
theorem getInput_ahead {s : State} (hs : Sound s) :
    match getInput s with
    | (none, s₁) => s₁ = s ∧ s.ahead = []
    | (some ch, s₁) => Sound s₁ ∧ s.ahead = (ch &&& 0x7F) :: s₁.ahead ∧ s₁.calls = s.calls ∧
        s₁.buf = s.buf ∧ s.curr ≤ s₁.curr := by
  unfold getInput
  cases hbuf : s.buf[s.curr]? with
  | some ch =>
      obtain ⟨hlt, rfl⟩ := List.getElem?_eq_some_iff.mp hbuf
      refine ⟨⟨hs.stdio, hs.pieces⟩, ?_, rfl, rfl, Nat.le_succ _⟩
      rw [State.ahead, List.drop_eq_getElem_cons hlt]
      rfl
  | none =>
      have hdrop : s.buf.drop s.curr = [] :=
        List.drop_eq_nil_of_le (List.getElem?_eq_none_iff.mp hbuf)
      cases hp : s.pieces with
      | nil => simp [State.ahead, hdrop, hp]
      | cons p ps =>
          obtain ⟨ch, p, rfl⟩ := List.exists_cons_of_ne_nil (hs.pieces p (by simp [hp]))
          have hps : ∀ q ∈ ps, q ≠ [] := fun q hq => hs.pieces q (by simp [hp, hq])
          cases p with
          | nil =>
              refine ⟨⟨hs.stdio, hps⟩, ?_, rfl, rfl, le_rfl⟩
              simp [State.ahead, hdrop, hp]
          | cons c p =>
              refine ⟨⟨hs.stdio, ?_⟩, ?_, rfl, rfl, le_rfl⟩
              · simpa using hps
              · simp [State.ahead, hdrop, hp]

theorem takeLine_ne_nil (n : ℕ) {bs : List Byte} (h : bs ≠ []) : takeLine (n + 1) bs ≠ [] := by
  obtain ⟨b, bs, rfl⟩ := List.exists_cons_of_ne_nil h
  rw [takeLine]
  split <;> simp

/-- There is no line where there is nothing to read. -/
theorem line_eq_nil_iff {s : State} (hs : Sound s) :
    (fgets (maxFilename - 2) s.stdio s.pieces).1 = [] ↔ s.pieces = [] := by
  rw [hs.stdio]
  cases hp : s.pieces with
  | nil => simp [fgets, takeLine]
  | cons p ps =>
      have hne : p ≠ [] := hs.pieces p (by simp [hp])
      have hline : takeLine 254 p ≠ [] := takeLine_ne_nil 253 hne
      simp only [reduceCtorEq, iff_false]
      intro hnil
      have hmore : (fgets 254 p ps).1 = [] := by
        simpa [fgets, takeLine, hne] using hnil
      cases ps with
      | nil => exact hline hmore
      | cons q qs =>
          simp only [fgets] at hmore
          split at hmore
          · exact hline hmore
          split at hmore
          · exact hline hmore
          · exact hline (List.append_eq_nil_iff.mp hmore).1

section Meaning

variable (o : Outside) (devout : ℤ)

/-- The state after a command that reads no file name. -/
theorem reading_act {s s' : State} {ch : Byte} (hch : ¬AsksFile ch) (hahead : s.ahead = ch :: s'.ahead) :
    let a := act (o.status (programs s.calls).length) devout 2 ch
    s'.calls = s.calls ++ .echo ch :: a.effects →
    match a.next with
    | none => (s.reading o devout true).2 = false ∧ s.predicted o devout true [] = seen s'.calls
    | some mode => (s'.reading o devout mode).2 = (s.reading o devout true).2 ∧
        s'.predicted o devout mode [] = s.predicted o devout true [] := by
  intro a hcalls
  have hseen : seen s'.calls = seen s.calls ++ .command ch :: seen a.effects := by
    rw [hcalls]
    exact seen_append _ _
  have hprograms : (programs s'.calls).length =
      (programs s.calls).length + (programs a.effects).length := by
    rw [hcalls, programs_append, List.length_append]
    rfl
  cases hnext : a.next with
  | none =>
      have hreading : s.reading o devout true = (.command ch :: seen a.effects, false) := by
        rw [State.reading, hahead, Console.reading, if_neg hch]
        simp only [a] at hnext
        simp only [hnext, a]
      exact ⟨by rw [hreading], by rw [State.predicted, hreading, hseen]; simp⟩
  | some mode =>
      have hreading : s.reading o devout true =
          (.command ch :: seen a.effects ++ (s'.reading o devout mode).1,
            (s'.reading o devout mode).2) := by
        rw [State.reading, hahead, Console.reading, if_neg hch]
        simp only [a] at hnext
        simp only [hnext, a, State.reading, hprograms]
      exact ⟨by rw [hreading], by rw [State.predicted, State.predicted, hreading, hseen]; simp⟩

/-- How a part of the filter can end, of which `seen` was foretold and whether a
file name is asked for with bytes behind the command: the data goes on, the
session is over, or the name was asked for. In the last case a program was
started on a file if the chunk was spent. -/
inductive Ended (rv : ℤ) (foretold : List Seen) (asks : Bool) (spent : Prop) (r : ℤ × State) : Prop
  | goesOn (result : r.1 = rv) (sound : Sound r.2) (same : (r.2.reading o devout false).2 = asks)
      (predicted : r.2.predicted o devout false [] = foretold)
  | finished (result : r.1 = 0) (same : asks = false) (predicted : seen r.2.calls = foretold)
  | asked (same : asks = true) (file : o.envFilename = none → spent → ¬NoFile r.2.calls)

theorem reading_of_ahead_nil {s : State} (h : s.ahead = []) (mode : Bool) :
    s.reading o devout mode = ([], false) := by
  rw [State.reading, h, Console.reading]

variable {o}

/-- A command that reads no file name does what the byte means. -/
theorem command_reading (ho : ∀ k n, o.write k n = n) {s s₁ : State} (hs₁ : Sound s₁) {ch : Byte}
    (hch : ¬AsksFile ch) (hahead : s.ahead = ch :: s₁.ahead) (hcalls : s₁.calls = s.calls) :
    match command o devout ch (s₁.echo ch) with
    | (some rv, s₂) => Ended o devout 1 (s.predicted o devout true []) (s.reading o devout true).2
        (s.buf.length ≤ s.curr) (rv, s₂)
    | (none, s₂) => Sound s₂ ∧ (s₂.reading o devout true).2 = (s.reading o devout true).2 ∧
        s₂.predicted o devout true [] = s.predicted o devout true [] := by
  have hprograms : programs (s₁.echo ch).calls = programs s.calls := by
    rw [programs_echo, hcalls]
  have hact := command_act o devout hch (s₁.echo ch)
  simp only [ho, hprograms, Nat.cast_ofNat] at hact
  rw [hact]
  generalize ha : act (o.status (programs s.calls).length) devout 2 ch = a at hact ⊢
  obtain ⟨s₂, hs₂⟩ : ∃ s₂ : State,
    { s₁.echo ch with calls := (s₁.echo ch).calls ++ a.effects } = s₂ :=
    ⟨_, rfl⟩
  have hahead₂ : s.ahead = ch :: s₂.ahead := by
    rw [hahead, ← hs₂]
    rfl
  have hmeans := reading_act o devout hch hahead₂
  have hcalls₂ : s₂.calls = s.calls ++ .echo ch :: a.effects := by
    rw [← hs₂, ← hcalls]
    simp [State.echo]
  have hsound : Sound s₂ := by
    rw [← hs₂]
    exact ⟨hs₁.stdio, hs₁.pieces⟩
  simp only [ha] at hmeans
  specialize hmeans hcalls₂
  rw [hs₂]
  cases hnext : a.next with
  | none =>
      rw [hnext] at hmeans
      rw [Act.result, hnext]
      exact .finished rfl hmeans.1 hmeans.2.symm
  | some mode =>
      rw [hnext] at hmeans
      cases mode with
      | false =>
          rw [Act.result, hnext]
          exact .goesOn rfl hsound hmeans.1 hmeans.2
      | true =>
          rw [Act.result, hnext]
          exact ⟨hsound, hmeans.1, hmeans.2⟩

/-- A command that asks for a file name does nothing at the end of the input. With
bytes behind it that are not in the chunk it starts a program on a file. -/
theorem command_asked {s : State} (hs : Sound s) {ch : Byte} (hch : AsksFile ch) :
    (s.ahead = [] → command o devout ch (s.echo ch) = (none, s.echo ch)) ∧
      (s.ahead ≠ [] → o.envFilename = none → s.buf.length ≤ s.curr →
        ¬NoFile (command o devout ch (s.echo ch)).2.calls) := by
  have hline := line_eq_nil_iff (hs.echo ch)
  rcases command_file o devout hch (s.echo ch) with
    ⟨hc, hnone⟩ | ⟨hsome, rv, program, status, download, spawn, hfile, hc⟩
  · refine ⟨fun hnil => ?_, fun hne henv hspent => ?_⟩
    · rw [hc, lineRead_of_nil (hs.echo ch) (hs.nil_of_ahead hnil).2]
    · have hp : s.pieces = [] := hline.mp (hnone.resolve_right fun h => h henv)
      refine absurd ?_ hne
      rw [State.ahead, List.drop_eq_nil_of_le hspent, hp]
      rfl
  · refine ⟨fun hnil => ?_, fun _ _ _ hno => hfile (hno program ?_)⟩
    · exact absurd (hline.mpr (hs.nil_of_ahead hnil).2) hsome
    · rw [hc]
      simp [programs]

/-- Command mode reads what the bytes ahead mean. -/
theorem handlebreak_ended (ho : ∀ k n, o.write k n = n) {s : State} (hs : Sound s) :
    Ended o devout 1 (s.predicted o devout true []) (s.reading o devout true).2
      (s.buf.length ≤ s.curr) (handlebreak o devout s) := by
  fun_induction handlebreak o devout s with
  | case1 s s₁ h =>
      have hin := getInput_ahead hs
      rw [h] at hin
      obtain ⟨rfl, hahead⟩ := hin
      have hreading := reading_of_ahead_nil o devout hahead true
      exact .finished rfl (by rw [hreading]) (by simp [State.predicted, hreading])
  | case2 s ch s₁ h rv s₂ hc =>
      have hin := getInput_ahead hs
      rw [h] at hin
      obtain ⟨hs₁, hahead, hcalls, hbuf, hcurr⟩ := hin
      by_cases hch : AsksFile (ch &&& 0x7F)
      · obtain ⟨hnil, hfile⟩ := command_asked devout hs₁ hch
        rw [hc] at hnil hfile
        have hne : s₁.ahead ≠ [] := fun h => absurd (congrArg Prod.fst (hnil h)) (by simp)
        refine .asked ?_ fun henv hspent => hfile hne henv (hbuf ▸ hspent.trans hcurr)
        rw [State.reading, hahead, Console.reading, if_pos hch]
        exact decide_eq_true hne
      · have hmeans := command_reading devout ho hs₁ hch hahead hcalls
        rw [hc] at hmeans
        exact hmeans
  | case3 s ch s₁ h s₂ hc ih =>
      have hin := getInput_ahead hs
      rw [h] at hin
      obtain ⟨hs₁, hahead, hcalls, hbuf, hcurr⟩ := hin
      have hmove : s.buf.length ≤ s.curr → s₂.buf.length ≤ s₂.curr := by
        intro hspent
        obtain ⟨-, hbuf₂, hcurr₂⟩ := left_command o devout (ch &&& 0x7F) (s₁.echo (ch &&& 0x7F))
        rw [hc] at hbuf₂ hcurr₂
        rw [hbuf₂, hcurr₂]
        exact (congrArg List.length hbuf).le.trans (hspent.trans hcurr)
      -- what follows if the command did what its byte means
      have hgo : Sound s₂ → (s₂.reading o devout true).2 = (s.reading o devout true).2 →
          s₂.predicted o devout true [] = s.predicted o devout true [] →
          Ended o devout 1 (s.predicted o devout true []) (s.reading o devout true).2
            (s.buf.length ≤ s.curr) (handlebreak o devout s₂) := by
        intro hs₂ hsame hpredicted
        rw [← hsame, ← hpredicted]
        cases ih hs₂ with
        | goesOn hrv hsound hsame hpred => exact .goesOn hrv hsound hsame hpred
        | finished hrv hsame hpred => exact .finished hrv hsame hpred
        | asked hsame hfile =>
            exact .asked hsame fun henv hspent => hfile henv (hmove hspent)
      by_cases hch : AsksFile (ch &&& 0x7F)
      · obtain ⟨hnil, hfile⟩ := command_asked devout hs₁ hch
        rw [hc] at hnil hfile
        have hreading : s.reading o devout true =
            ([.command (ch &&& 0x7F)], decide (s₁.ahead ≠ [])) := by
          rw [State.reading, hahead, Console.reading, if_pos hch]
        by_cases hend : s₁.ahead = []
        · have hs₂ : s₂ = s₁.echo (ch &&& 0x7F) := congrArg Prod.snd (hnil hend)
          have hreading₂ : s₂.reading o devout true = ([], false) :=
            reading_of_ahead_nil o devout (hs₂ ▸ hend) true
          refine hgo (hs₂ ▸ hs₁.echo _) ?_ ?_
          · rw [hreading, hreading₂]
            exact (decide_eq_false (not_not.mpr hend)).symm
          · rw [State.predicted, State.predicted, hreading, hreading₂, hs₂, seen_echo, hcalls]
            simp
        · refine .asked (by rw [hreading]; exact decide_eq_true hend) fun henv hspent hno => ?_
          have hle := (kept_calls o devout s₂.calls).through_handlebreak (List.prefix_refl _)
          exact hfile hend henv (hbuf ▸ hspent.trans hcurr) (hno.of_prefix hle)
      · have hmeans := command_reading devout ho hs₁ hch hahead hcalls
        rw [hc] at hmeans
        exact hgo hmeans.1 hmeans.2.1 hmeans.2.2

/-! ### The filter -/

/-- `s'` is `s` after complete writes of `bytes`. -/
structure Sent (s : State) (bytes : List Byte) (s' : State) : Prop where
  frame : s' = { s with calls := s'.calls }
  seen : seen s'.calls = seen s.calls ++ bytes.map .sent
  programs : programs s'.calls = programs s.calls

theorem Sent.trans {s s' s'' : State} {bytes more : List Byte} (h : Sent s bytes s')
    (h' : Sent s' more s'') : Sent s (bytes ++ more) s'' where
  frame := by rw [h'.frame, h.frame]
  seen := by rw [h'.seen, h.seen, List.map_append, List.append_assoc]
  programs := h'.programs.trans h.programs

theorem Sent.ahead {s s' : State} {bytes : List Byte} (h : Sent s bytes s') : s'.ahead = s.ahead := by
  rw [h.frame]
  rfl

theorem Sent.sound {s s' : State} {bytes : List Byte} (h : Sent s bytes s') (hs : Sound s) : Sound s' := by
  rw [h.frame]
  exact ⟨hs.stdio, hs.pieces⟩

theorem Sent.reading {s s' : State} {bytes : List Byte} (h : Sent s bytes s') (mode : Bool) :
    s'.reading o devout mode = s.reading o devout mode := by
  rw [State.reading, State.reading, h.ahead, h.programs]

theorem Sent.predicted {s s' : State} {bytes : List Byte} (h : Sent s bytes s') (mode : Bool)
    (pending : List Byte) :
    s'.predicted o devout mode pending = s.predicted o devout mode (bytes ++ pending) := by
  rw [State.predicted, State.predicted, h.reading, h.seen]
  simp

theorem issueWrite_sent (ho : ∀ k n, o.write k n = n) (s : State) (bytes : List Byte) :
    (s.issueWrite o devout bytes).1 = bytes.length ∧
      Sent s bytes (s.issueWrite o devout bytes).2 := by
  refine ⟨ho _ _, rfl, ?_, ?_⟩
  · simp [State.issueWrite, ho, Console.seen, Call.seen]
  · simp [State.issueWrite, Console.programs]

theorem sendRange_sent (ho : ∀ k n, o.write k n = n) (s : State) {start clen : ℕ}
    (h : start + clen ≤ s.buf.length) :
    (s.sendRange o devout start clen).1 = true ∧
      Sent s ((s.buf.drop start).take clen) (s.sendRange o devout start clen).2 := by
  obtain ⟨hrv, hsent⟩ := issueWrite_sent devout ho s ((s.buf.drop start).take clen)
  refine ⟨?_, hsent⟩
  rw [State.sendRange, hrv, List.length_take, List.length_drop]
  simp only [not_lt, decide_eq_true_eq, Nat.cast_le]
  omega

theorem sendPending_sent (ho : ∀ k n, o.write k n = n) (s : State) {start clen : ℕ}
    (h : start + clen ≤ s.buf.length) :
    (s.sendPending o devout start clen).1 = true ∧
      Sent s ((s.buf.drop start).take clen) (s.sendPending o devout start clen).2 := by
  unfold State.sendPending
  split
  · exact sendRange_sent devout ho s h
  · next hzero =>
    obtain rfl : clen = 0 := by omega
    exact ⟨rfl, rfl, by simp, rfl⟩

/-- What is seen of a byte of data, and whether command mode is behind it. -/
theorem reading_data (o : Outside) {s s' : State} {b : Byte} (hahead : s.ahead = b :: s'.ahead)
    (hprograms : programs s'.calls = programs s.calls) :
    (b = 92 → s.reading o devout false =
      ([.sent 92, .sent 92] ++ (s'.reading o devout false).1, (s'.reading o devout false).2)) ∧
    (b = escCharacter → s.reading o devout false = s'.reading o devout true) ∧
    (b ≠ 92 → b ≠ escCharacter → s.reading o devout false =
      (.sent b :: (s'.reading o devout false).1, (s'.reading o devout false).2)) := by
  simp only [State.reading, hahead, hprograms, Console.reading]
  refine ⟨?_, ?_, fun h h' => ?_⟩
  · rintro rfl
    rfl
  · rintro rfl
    rfl
  · rw [if_neg h, if_neg h']
    rfl

theorem handlebreak_curr_le {s : State} (hcurr : s.curr ≤ s.buf.length) :
    (handlebreak o devout s).2.curr ≤ (handlebreak o devout s).2.buf.length := by
  have hinput : ∀ s : State, s.curr ≤ s.buf.length →
      (getInput s).2.curr ≤ (getInput s).2.buf.length := by
    intro s hs
    unfold getInput
    cases hbuf : s.buf[s.curr]? with
    | some ch => exact (List.getElem?_eq_some_iff.mp hbuf).1
    | none =>
        dsimp only
        split <;> exact hs
  fun_induction handlebreak o devout s with
  | case1 s s₁ h =>
      have := hinput s hcurr
      rwa [h] at this
  | case2 s ch s₁ h rv s₂ hc =>
      have hin := hinput s hcurr
      obtain ⟨-, hbuf, hcur⟩ := left_command o devout (ch &&& 0x7F) (s₁.echo (ch &&& 0x7F))
      rw [h] at hin
      rw [hc] at hbuf hcur
      rw [hbuf, hcur]
      exact hin
  | case3 s ch s₁ h s₂ hc ih =>
      have hin := hinput s hcurr
      obtain ⟨-, hbuf, hcur⟩ := left_command o devout (ch &&& 0x7F) (s₁.echo (ch &&& 0x7F))
      rw [h] at hin
      rw [hc] at hbuf hcur
      apply ih
      rw [hbuf, hcur]
      exact hin

/-- The bytes read and not sent. -/
def State.pending (s : State) (start : ℕ) : List Byte := (s.buf.drop start).take (s.curr - start)

theorem pending_self (s : State) : s.pending s.curr = [] := by
  simp [State.pending]

theorem pending_advance {s : State} {start : ℕ} (hstart : start ≤ s.curr)
    (hlt : s.curr < s.buf.length) :
    (s.buf.drop start).take (s.curr + 1 - start) = s.pending start ++ [s.buf[s.curr]] := by
  rw [State.pending, show s.curr + 1 - start = s.curr - start + 1 by omega, List.take_add_one,
    List.getElem?_drop, show start + (s.curr - start) = s.curr by omega,
    List.getElem?_eq_getElem hlt]
  rfl

theorem ahead_advance {s : State} (hlt : s.curr < s.buf.length) (hseven : ∀ b ∈ s.buf, b &&& 0x7F = b) :
    s.ahead = s.buf[s.curr] :: { s with curr := s.curr + 1 }.ahead := by
  rw [State.ahead, List.drop_eq_getElem_cons hlt, List.cons_append, List.map_cons,
    hseven _ (List.getElem_mem hlt)]
  rfl

/-- At the escape character what is pending goes out and command mode reads on. -/
theorem escape_ended (ho : ∀ k n, o.write k n = n) {start : ℕ} {s : State} (hs : Sound s)
    (hstart : start ≤ s.curr) (hlt : s.curr < s.buf.length) (hseven : ∀ b ∈ s.buf, b &&& 0x7F = b)
    (hesc : s.buf[s.curr] = escCharacter) :
    let read : State := { s with curr := s.curr + 1 }
    Ended o devout 1 (s.predicted o devout false (s.pending start)) (s.reading o devout false).2
      (s.buf.length ≤ 1)
      (handlebreak o devout (read.sendPending o devout start (read.curr - start - 1)).2) := by
  intro read
  have hsent := (sendPending_sent devout ho read
    (show start + (read.curr - start - 1) ≤ read.buf.length by simp only [read]; omega)).2
  obtain ⟨hbuf, hcurr⟩ := sendPending_frame o read devout start (read.curr - start - 1)
  generalize (read.sendPending o devout start (read.curr - start - 1)).2 =
    sent at hsent hbuf hcurr ⊢
  have hrange : (read.buf.drop start).take (read.curr - start - 1) = s.pending start := by
    simp only [read, State.pending]
    congr 1
    omega
  rw [hrange] at hsent
  have hbyte : s.ahead = s.buf[s.curr] :: sent.ahead := by
    rw [hsent.ahead]
    exact ahead_advance hlt hseven
  have hreading := (reading_data devout o hbyte hsent.programs).2.1 hesc
  have hpredicted : s.predicted o devout false (s.pending start) =
    sent.predicted o devout true [] := by
    rw [State.predicted, State.predicted, hreading, hsent.seen]
    simp [read]
  rw [hreading, hpredicted]
  cases handlebreak_ended devout ho (hsent.sound ⟨hs.stdio, hs.pieces⟩) with
  | goesOn hrv hsound hsame hpred => exact .goesOn hrv hsound hsame hpred
  | finished hrv hsame hpred => exact .finished hrv hsame hpred
  | asked hsame hfile =>
      refine .asked hsame fun henv hone => hfile henv ?_
      rw [hbuf, hcurr]
      exact hone.trans (Nat.le_add_left 1 s.curr)

/-- The filter does what the bytes mean. -/
theorem flush2netLoop_ended (ho : ∀ k n, o.write k n = n) {start : ℕ} {s : State} (hs : Sound s)
    (hstart : start ≤ s.curr) (hcurr : s.curr ≤ s.buf.length) (hseven : ∀ b ∈ s.buf, b &&& 0x7F = b) :
    Ended o devout s.buf.length (s.predicted o devout false (s.pending start))
        (s.reading o devout false).2 (s.buf.length ≤ 1) (flush2netLoop o devout start s) := by
  fun_induction flush2netLoop o devout start s with
  | case1 start s hlt ch read hch sent hfail =>
      have hsent := sendRange_sent devout ho read
        (show start + (read.curr - start) ≤ read.buf.length by simp only [read]; omega)
      exact absurd (hsent.1.symm.trans hfail) (by simp)
  | case2 start s hlt ch read hch sent hsent doubled hfail =>
      exact absurd (issueWrite_sent devout ho sent.2 [92]).1 hfail
  | case3 start s hlt ch read hch sent _ doubled _ ih =>
      have hsent := (sendRange_sent devout ho read
        (show start + (read.curr - start) ≤ read.buf.length by simp only [read]; omega)).2
      have hboth := hsent.trans (issueWrite_sent devout ho sent.2 [92]).2
      have hframe : doubled.2.buf = s.buf ∧ doubled.2.curr = s.curr + 1 := ⟨rfl, rfl⟩
      specialize ih (hboth.sound ⟨hs.stdio, hs.pieces⟩) le_rfl
        (by rw [hframe.1, hframe.2]; exact hlt)
        hseven
      have hbyte : s.ahead = ch :: doubled.2.ahead := by
        rw [hboth.ahead]
        exact ahead_advance hlt hseven
      have hreading := (reading_data devout o hbyte hboth.programs).1 hch
      have hpredicted : doubled.2.predicted o devout false (doubled.2.pending doubled.2.curr) =
          s.predicted o devout false (s.pending start) := by
        rw [pending_self, State.predicted, State.predicted, hboth.seen, hreading]
        have hrange : (read.buf.drop start).take (read.curr - start) = s.pending start ++ [92] := by
          rw [← hch]
          exact pending_advance hstart hlt
        rw [hrange]
        simp [read]
      rw [hpredicted] at ih
      rw [hreading]
      exact ih
  | case4 start s hlt ch read hch hesc sent hfail =>
      have hsent := sendPending_sent devout ho read
        (show start + (read.curr - start - 1) ≤ read.buf.length by simp only [read]; omega)
      exact absurd (hsent.1.symm.trans hfail) (by simp)
  | case5 start s hlt ch read hch hesc sent _ broken hle =>
      cases escape_ended devout ho hs hstart hlt hseven hesc with
      | goesOn hrv _ _ _ => exact absurd (hrv.symm.le.trans hle) (by simp)
      | finished hrv hsame hpred => exact .finished hrv hsame hpred
      | asked hsame hfile => exact .asked hsame hfile
  | case6 start s hlt ch read hch hesc sent _ broken hgo ih =>
      obtain ⟨hbuf₁, hcurr₁⟩ := sendPending_frame o read devout start (read.curr - start - 1)
      obtain ⟨hbuf₂, -⟩ := handlebreak_frame o devout sent.2
      have hbuf : broken.2.buf = s.buf := hbuf₂.trans hbuf₁
      cases escape_ended devout ho hs hstart hlt hseven hesc with
      | goesOn _ hsound hsame hpred =>
          have hle : broken.2.curr ≤ broken.2.buf.length :=
            handlebreak_curr_le devout (hcurr₁.trans_le (hlt.trans_eq (congrArg _ hbuf₁.symm)))
          specialize ih hsound le_rfl hle (hbuf ▸ hseven)
          rw [pending_self, hbuf, hsame, hpred] at ih
          exact ih
      | finished hrv _ _ => exact absurd hrv.le hgo
      | asked hsame hfile =>
          refine .asked hsame fun henv hone hno => hfile henv hone ?_
          exact hno.of_prefix ((kept_calls o devout _).through_loop (List.prefix_refl _))
  | case7 start s hlt ch read hch hesc ih =>
      have hreading := (reading_data devout o (ahead_advance hlt hseven)
        (Eq.refl (programs read.calls))).2.2 hch hesc
      specialize ih ⟨hs.stdio, hs.pieces⟩ (Nat.le_succ_of_le hstart) hlt hseven
      have hpredicted : read.predicted o devout false (read.pending start) =
          s.predicted o devout false (s.pending start) := by
        have hrange : read.pending start = s.pending start ++ [ch] := pending_advance hstart hlt
        rw [hrange, State.predicted, State.predicted, hreading]
        simp [read, ch]
      rw [hpredicted] at ih
      rw [hreading]
      exact ih
  | case8 start s hend hne sent hfail =>
      have hsent := sendRange_sent devout ho s
        (show start + (s.curr - start) ≤ s.buf.length by omega)
      exact absurd (hsent.1.symm.trans hfail) (by simp)
  | case9 start s hend hne sent _ =>
      have hsent := (sendRange_sent devout ho s
        (show start + (s.curr - start) ≤ s.buf.length by omega)).2
      refine .goesOn rfl (hsent.sound hs) ?_ ?_
      · rw [hsent.reading]
      · rw [hsent.predicted, List.append_nil]
        rfl
  | case10 start s hend heq =>
      obtain rfl : s.curr = start := not_not.mp heq
      refine .goesOn rfl hs rfl ?_
      rw [pending_self]

/-- A chunk that was taken is spent. -/
theorem flush2netLoop_spent (ho : ∀ k n, o.write k n = n) {start : ℕ} {s : State}
    (hstart : start ≤ s.curr) (hcurr : s.curr ≤ s.buf.length)
    (hrv : 0 < (flush2netLoop o devout start s).1) :
    (flush2netLoop o devout start s).2.buf.length ≤ (flush2netLoop o devout start s).2.curr := by
  fun_induction flush2netLoop o devout start s with
  | case1 start s hlt ch read hch sent hfail =>
      have hsent := sendRange_sent devout ho read
        (show start + (read.curr - start) ≤ read.buf.length by simp only [read]; omega)
      exact absurd (hsent.1.symm.trans hfail) (by simp)
  | case2 start s hlt ch read hch sent hsent doubled hfail =>
      exact absurd (issueWrite_sent devout ho sent.2 [92]).1 hfail
  | case3 start s hlt ch read hch sent _ doubled _ ih => exact ih le_rfl hlt hrv
  | case4 start s hlt ch read hch hesc sent hfail =>
      have hsent := sendPending_sent devout ho read
        (show start + (read.curr - start - 1) ≤ read.buf.length by simp only [read]; omega)
      exact absurd (hsent.1.symm.trans hfail) (by simp)
  | case5 start s hlt ch read hch hesc sent _ broken hle => exact absurd hrv (not_lt.mpr hle)
  | case6 start s hlt ch read hch hesc sent _ broken hgo ih =>
      obtain ⟨hbuf₁, hcurr₁⟩ := sendPending_frame o read devout start (read.curr - start - 1)
      have hle : broken.2.curr ≤ broken.2.buf.length :=
        handlebreak_curr_le devout (hcurr₁.trans_le (hlt.trans_eq (congrArg _ hbuf₁.symm)))
      exact ih le_rfl hle hrv
  | case7 start s hlt ch read hch hesc ih => exact ih (Nat.le_succ_of_le hstart) hlt hrv
  | case8 start s hend hne sent hfail =>
      have hsent := sendRange_sent devout ho s
        (show start + (s.curr - start) ≤ s.buf.length by omega)
      exact absurd (hsent.1.symm.trans hfail) (by simp)
  | case9 start s hend hne sent _ => exact not_lt.mp hend
  | case10 start s hend heq => exact not_lt.mp hend

theorem mask_mask (b : Byte) : b &&& 0x7F &&& 0x7F = b &&& 0x7F := by
  rw [UInt8.and_assoc]
  rfl

/-- The next chunk is what is ahead of a spent one. -/
theorem ahead_load {s : State} {p : List Byte} {ps : List (List Byte)} (hspent : s.buf.length ≤ s.curr)
    (hp : s.pieces = p :: ps) :
    State.ahead { s with pieces := ps, buf := p.map (· &&& 0x7F), curr := 0, gotInput := true } =
      s.ahead := by
  rw [State.ahead, State.ahead, List.drop_eq_nil_of_le hspent, hp]
  simp [mask_mask]

theorem flushdata_loop (o : Outside) (hd : devout ≠ 1) (b : Byte) (p : List Byte) (s : State) :
    let chunk := b :: p
    let r := Connectto.flushdata (flushdata o false devout) (some chunk) s
    let l := flush2netLoop o devout 0
      { s with buf := chunk.map (· &&& 0x7F), curr := 0, gotInput := true }
    r.2 = l.2 ∧ (l.1 = chunk.length → r.1 = 1) ∧ (l.1 ≤ 0 → r.1 = l.1) := by
  intro chunk r l
  have hl : flushdata o false devout chunk s = l := by
    rw [flushdata, if_neg (by simp), if_neg hd, flush2net]
  refine ⟨?_, fun h => ?_, fun h => ?_⟩
  · rw [← hl]
    exact flushdata_state _ b p s
  · simp only [r, chunk, Connectto.flushdata, hl]
    rw [if_neg (not_not.mpr h)]
  · simp only [r, chunk, Connectto.flushdata, hl]
    rw [if_pos (by simp only [List.length_cons]; omega), if_neg (fun h' => h'.1.not_ge h)]

/-- One round of the session loop. -/
theorem round_ended (ho : ∀ k n, o.write k n = n) (hd : devout ≠ 1) {s : State} (hs : Sound s)
    (hspent : s.buf.length ≤ s.curr) {p : List Byte} {ps : List (List Byte)} (hp : s.pieces = p :: ps) :
    let r := Connectto.flushdata (flushdata o false devout) (some p) { s with pieces := ps }
    Ended o devout 1 (s.predicted o devout false []) (s.reading o devout false).2 (p.length ≤ 1) r ∧
      (0 < r.1 → r.2.buf.length ≤ r.2.curr) := by
  obtain ⟨b, p, rfl⟩ := List.exists_cons_of_ne_nil (hs.pieces p (by simp [hp]))
  intro r
  obtain ⟨hstate, htaken, hover⟩ := flushdata_loop devout o hd b p { s with pieces := ps }
  obtain ⟨load, hload⟩ : ∃ load : State, { s with
    pieces := ps, buf := (b :: p).map (· &&& 0x7F), curr := 0, gotInput := true } = load := ⟨_, rfl⟩
  have hahead : load.ahead = s.ahead := by
    rw [← hload]
    exact ahead_load hspent hp
  have hcalls : load.calls = s.calls := by rw [← hload]
  have hlength : load.buf.length = (b :: p).length := by
    rw [← hload]
    simp
  have hreading : load.reading o devout false = s.reading o devout false := by
    rw [State.reading, State.reading, hahead, hcalls]
  have hpredicted : load.predicted o devout false [] = s.predicted o devout false [] := by
    rw [State.predicted, State.predicted, hreading, hcalls]
  have hcurr : load.curr = 0 := by rw [← hload]
  have hseven : ∀ c ∈ load.buf, c &&& 0x7F = c := by
    rw [← hload]
    intro c hc
    obtain ⟨c, -, rfl⟩ := List.mem_map.mp hc
    exact mask_mask c
  have hsound : Sound load := by
    rw [← hload]
    exact ⟨hs.stdio, fun q hq => hs.pieces q (by rw [hp]; exact List.mem_cons_of_mem _ hq)⟩
  have hended := flush2netLoop_ended devout ho hsound (Nat.zero_le load.curr) (by omega) hseven
  have hspent' := flush2netLoop_spent devout ho (Nat.zero_le load.curr) (by omega)
  rw [show load.pending 0 = [] by simp [State.pending, hcurr], hreading, hpredicted,
    hlength] at hended
  have hloop : r.2 = (flush2netLoop o devout 0 load).2 := by
    rw [← hload]
    exact hstate
  rw [hload] at htaken hover
  refine ⟨?_, fun hpos => ?_⟩
  · cases hended with
    | goesOn hrv hround hsame hpred =>
        exact .goesOn (htaken hrv) (by rwa [hloop]) (by rwa [hloop]) (by rwa [hloop])
    | finished hrv hsame hpred => exact .finished ((hover hrv.le).trans hrv) hsame (by rwa [hloop])
    | asked hsame hfile => exact .asked hsame (by rwa [hloop])
  · rw [hloop]
    apply hspent'
    by_contra hle
    exact absurd ((hover (not_lt.mp hle)).symm.trans_gt hpos) hle

theorem mem_fgets {n : ℕ} {stdio : List Byte} {pieces : List (List Byte)} {p : List Byte}
    (h : p ∈ (fgets n stdio pieces).2.2) : p ∈ pieces := by
  induction pieces generalizing n stdio with
  | nil => simp [fgets] at h
  | cons q qs ih =>
      simp only [fgets] at h
      split at h
      · exact h
      split at h
      · exact List.mem_cons_of_mem _ h
      · exact List.mem_cons_of_mem _ (ih h)

variable (o) in
/-- Reads of single bytes stay such. -/
theorem kept_single : Kept o devout fun s => ∀ p ∈ s.pieces, p.length ≤ 1 where
  load _ _ hs := hs
  advance _ hs := hs
  input s hs := by
    unfold getInput
    split
    · exact hs
    · split <;> next hp => simp_all
  write _ _ hs := hs
  command s ch hs := by
    have hline : ∀ p ∈ (s.echo ch).lineRead.pieces, p.length ≤ 1 := fun p hp => hs p (mem_fgets hp)
    by_cases hch : AsksFile ch
    · rcases command_file o devout hch (s.echo ch) with
        ⟨hc, -⟩ | ⟨-, rv, program, status, download, spawn, -, hc⟩
      · rw [hc]
        exact hline
      · rw [hc]
        exact hline
    · rw [command_act o devout hch]
      exact hs

/-- A session does what its stream means. If a file name is asked for with bytes
behind the command, a program is started on a file when every read returns one
byte. -/
theorem keyboard_reading (ho : ∀ k n, o.write k n = n) (hd : devout ≠ 1) {s : State} (hs : Sound s)
    (hspent : s.buf.length ≤ s.curr) :
    ((s.reading o devout false).2 = false →
      seen (keyboard o devout s).calls = s.predicted o devout false []) ∧
    ((s.reading o devout false).2 = true → o.envFilename = none → (∀ p ∈ s.pieces, p.length ≤ 1) →
      ¬NoFile (keyboard o devout s).calls) := by
  fun_induction keyboard o devout s with
  | case1 s hp =>
      have hreading : s.reading o devout false = ([], false) := by
        apply reading_of_ahead_nil
        rw [State.ahead, List.drop_eq_nil_of_le hspent, hp]
        rfl
      exact ⟨fun _ => by simp [State.predicted, hreading], fun h => by simp [hreading] at h⟩
  | case2 s p ps hp r hend =>
      cases (round_ended devout ho hd hs hspent hp).1 with
      | goesOn hrv _ _ _ => exact absurd (hrv.symm.le.trans hend) (by simp)
      | finished hrv hsame hpred => exact ⟨fun _ => hpred, fun h => absurd (hsame.symm.trans h) (by simp)⟩
      | asked hsame hfile =>
          refine ⟨fun h => absurd (hsame.symm.trans h) (by simp), fun _ henv hone => hfile henv ?_⟩
          exact hone p (by rw [hp]; exact List.mem_cons_self)
  | case3 s p ps hp r hgo ih =>
      obtain ⟨hround, hspent'⟩ := round_ended devout ho hd hs hspent hp
      cases hround with
      | goesOn hrv hsound hsame hpred =>
          obtain ⟨hno, hfile⟩ := ih hsound (hspent' (not_le.mp hgo))
          rw [hsame] at hno hfile
          rw [hpred] at hno
          refine ⟨hno, fun hasks henv hone => hfile hasks henv ?_⟩
          refine (kept_single o devout).through_round o devout (fun q hq => hone q ?_) p
          rw [hp]
          exact List.mem_cons_of_mem _ hq
      | finished hrv _ _ => exact absurd hrv.le hgo
      | asked hsame hfile =>
          refine ⟨fun h => absurd (hsame.symm.trans h) (by simp), fun _ henv hone hno => ?_⟩
          refine hfile henv (hone p (by rw [hp]; exact List.mem_cons_self)) ?_
          exact hno.of_prefix ((kept_calls o devout _).through_keyboard o devout
            (fun _ _ _ h _ => h)
            (List.prefix_refl _))

end Meaning

/-! ### Chunks -/

/-- The letters that were read in command mode. -/
def commands (calls : List Call) : List Byte :=
  calls.filterMap fun
    | .echo ch => some ch
    | _ => none

/-- Two sessions mean the same: the bytes sent to each descriptor, the commands
and the programs with their file names. -/
structure SameMeaning (calls calls' : List Call) : Prop where
  sent : ∀ fd, sentOn fd calls = sentOn fd calls'
  commands : commands calls = commands calls'
  programs : programs calls = programs calls'

def Seen.byte : Seen → Option Byte
  | .sent b => some b
  | _ => none

def Seen.letter : Seen → Option Byte
  | .command ch => some ch
  | _ => none

def Seen.program : Seen → Option Started
  | .run program => some program
  | _ => none

/-- On the device is sent what is seen, and nothing elsewhere. -/
theorem sentOn_of_made {o : Outside} {devout : ℤ} {calls : List Call}
    (h : ∀ c ∈ calls, Made o devout c) (fd : ℤ) :
    sentOn fd calls = if fd = devout then (seen calls).filterMap Seen.byte else [] := by
  have hcall : ∀ c ∈ calls, Call.sentOn fd c =
      if fd = devout then (Call.seen c).filterMap Seen.byte else [] := by
    intro c hc
    cases h c hc with
    | write bytes k =>
        simp only [Call.sentOn, Call.seen, List.filterMap_map, eq_comm]
        split
        · exact (List.filterMap_some).symm
        · rfl
    | echo | run | suspend => exact (ite_self _).symm
  rw [sentOn, List.flatMap_congr hcall]
  split
  · rw [seen, List.filterMap_flatMap]
  · exact List.flatMap_eq_nil_iff.mpr fun _ _ => rfl

theorem sameMeaning_of_seen {o : Outside} {devout : ℤ} {calls calls' : List Call}
    (hmade : ∀ c ∈ calls, Made o devout c) (hmade' : ∀ c ∈ calls', Made o devout c)
    (h : seen calls = seen calls') : SameMeaning calls calls' := by
  have hcommands : ∀ calls, commands calls = (seen calls).filterMap Seen.letter := by
    intro calls
    rw [commands, seen, List.filterMap_flatMap, List.filterMap_eq_flatMap_toList]
    congr 1
    funext call
    cases call with
    | write fd bytes rv =>
        simp only [Call.seen, List.filterMap_map]
        exact (List.filterMap_eq_nil_iff.mpr fun _ _ => rfl).symm
    | _ => rfl
  have hprograms : ∀ calls, programs calls = (seen calls).filterMap Seen.program := by
    intro calls
    rw [programs, seen, List.filterMap_flatMap, List.filterMap_eq_flatMap_toList]
    congr 1
    funext call
    cases call with
    | write fd bytes rv =>
        simp only [Call.seen, List.filterMap_map]
        exact (List.filterMap_eq_nil_iff.mpr fun _ _ => rfl).symm
    | _ => rfl
  refine ⟨fun fd => ?_, by rw [hcommands, hcommands, h], by rw [hprograms, hprograms, h]⟩
  rw [sentOn_of_made hmade, sentOn_of_made hmade', h]

theorem keyboard_made (o : Outside) (devout : ℤ) (pieces : List (List Byte)) :
    ∀ c ∈ (keyboard o devout (State.start pieces)).calls, Made o devout c := by
  have hstart : ∃ more, (State.start pieces).calls = [] ++ more ∧ ∀ c ∈ more, Made o devout c :=
    ⟨[], rfl, by simp⟩
  obtain ⟨more, hcalls, hmore⟩ := (kept_made o devout []).through_keyboard o devout
    (fun _ _ _ hs _ => hs) hstart
  rwa [hcalls]

/-- A way to read a stream: no read returns nothing. -/
structure Splits (pieces : List (List Byte)) (stream : List Byte) : Prop where
  flatten : pieces.flatten = stream
  nonempty : ∀ p ∈ pieces, p ≠ []

/-- Whether a stream, read as data from its first byte, comes to a command that
asks for a file name and has a byte behind it, if the programs end with `status`. -/
def AsksBefore (status : ℕ → ℤ) (devout : ℤ) (stream : List Byte) : Prop :=
  (reading status devout false 0 (stream.map (· &&& 0x7F))).2 = true

/-- On the standard output the keyboard has no commands. -/
theorem keyboard_stdout {o : Outside} (ho : ∀ k n, o.write k n = n) {s : State}
    (hs : ∀ p ∈ s.pieces, p ≠ []) :
    seen (keyboard o 1 s).calls =
      seen s.calls ++ (s.pieces.flatten.map (· &&& 0x7F)).map .sent := by
  have hround : ∀ (s : State) (p : List Byte), p ≠ [] →
      let r := Connectto.flushdata (flushdata o false 1) (some p) s
      r.1 = 1 ∧ r.2.pieces = s.pieces ∧
        seen r.2.calls = seen s.calls ++ (p.map (· &&& 0x7F)).map .sent := by
    intro s p hne
    obtain ⟨b, p, rfl⟩ := List.exists_cons_of_ne_nil hne
    obtain ⟨hrv, hsent⟩ := issueWrite_sent 1 ho s ((b :: p).map (· &&& 0x7F))
    have hflush : flushdata o false 1 (b :: p) s =
        s.issueWrite o 1 ((b :: p).map (· &&& 0x7F)) := rfl
    simp only [Connectto.flushdata, hflush]
    rw [if_neg (by rw [hrv, List.length_map]; exact not_not.mpr rfl)]
    exact ⟨rfl, by rw [hsent.frame], hsent.seen⟩
  fun_induction keyboard o 1 s with
  | case1 s hp => simp [hp]
  | case2 s p ps hp r hend =>
      obtain ⟨hrv, -⟩ := hround { s with pieces := ps } p (hs p (by simp [hp]))
      exact absurd (hrv.symm.le.trans hend) (by simp)
  | case3 s p ps hp r hgo ih =>
      obtain ⟨-, hpieces, hseen⟩ := hround { s with pieces := ps } p (hs p (by simp [hp]))
      have hps : ∀ q ∈ r.2.pieces, q ≠ [] := by
        rw [hpieces]
        exact fun q hq => hs q (by rw [hp]; exact List.mem_cons_of_mem _ hq)
      rw [ih hps, hpieces, hseen, hp]
      simp

/-- In one piece a stream names no file. -/
theorem noFile_whole (o : Outside) (devout : ℤ) (stream : List Byte) :
    NoFile (keyboard o devout (State.start [stream])).calls := by
  have hkept := kept_noFile o devout
  have hempty : (State.start []).pieces = [] ∧ (State.start []).stdio = [] ∧
      NoFile (State.start []).calls := ⟨rfl, rfl, by simp [NoFile, State.start, programs]⟩
  have hround := hkept.through_round o devout hempty stream
  rw [keyboard]
  split
  · next h => simp [State.start] at h
  · next p ps h =>
    obtain ⟨rfl, rfl⟩ := List.cons.inj h
    dsimp only
    split
    · exact hround.2.2
    · refine (hkept.through_keyboard o devout ?_ hround).2.2
      intro s p ps hs hp
      rw [hs.1] at hp
      exact absurd hp (by simp)

theorem start_sound {pieces : List (List Byte)} {stream : List Byte} (h : Splits pieces stream) :
    Sound (State.start pieces) := ⟨rfl, h.nonempty⟩

theorem start_reading (o : Outside) (devout : ℤ) {pieces : List (List Byte)} {stream : List Byte}
    (h : Splits pieces stream) : (State.start pieces).reading o devout false =
      reading o.status devout false 0 (stream.map (· &&& 0x7F)) := by
  rw [← h.flatten]
  rfl

/-- Read all at once, a stream that asks for a file name with a byte behind the
command starts no program on a file; read byte by byte it does. -/
theorem asked_by_chunk {status : ℕ → ℤ} {devout : ℤ} (hd : devout ≠ 1) {stream : List Byte}
    (hasks : AsksBefore status devout stream) :
    let o : Outside := ⟨fun _ n => n, status, none⟩
    ∃ pieces pieces', Splits pieces stream ∧ Splits pieces' stream ∧
      ¬SameMeaning (keyboard o devout (State.start pieces)).calls
        (keyboard o devout (State.start pieces')).calls := by
  intro o
  have hne : stream ≠ [] := by
    rintro rfl
    simp [AsksBefore, reading] at hasks
  have hwhole : Splits [stream] stream := ⟨by simp, by simpa using hne⟩
  have hbytes : Splits (stream.map fun b => [b]) stream :=
    ⟨(List.flatMap_def ..).symm.trans (List.flatMap_singleton' stream), by simp⟩
  refine ⟨_, _, hwhole, hbytes, fun hsame => ?_⟩
  have hfile := (keyboard_reading devout (o := o) (fun _ _ => rfl) hd (start_sound hbytes) le_rfl).2
    (by rw [start_reading o devout hbytes]; exact hasks) rfl (by simp [State.start])
  apply hfile
  rw [NoFile, ← hsame.programs]
  exact noFile_whole o devout stream

/-- **The streams that mean the same in any pieces.** However a stream is cut into
reads, all writes being complete, the same bytes are sent, the same commands are
read and the same programs are started on the same files, if and only if the
stream does not ask for a file name with a byte behind the command. -/
theorem keyboard_chunking_iff (devout : ℤ) (stream : List Byte) :
    (∀ o : Outside, (∀ k n, o.write k n = n) → ∀ pieces pieces', Splits pieces stream →
      Splits pieces' stream →
      SameMeaning (keyboard o devout (State.start pieces)).calls
        (keyboard o devout (State.start pieces')).calls) ↔
      devout = 1 ∨ ∀ status, ¬AsksBefore status devout stream := by
  constructor
  · intro hsame
    by_contra hnot
    obtain ⟨hd, hasks⟩ := not_or.mp hnot
    obtain ⟨status, hasks⟩ := not_forall.mp hasks
    obtain ⟨pieces, pieces', hp, hp', hdiffer⟩ := asked_by_chunk hd (not_not.mp hasks)
    exact hdiffer (hsame _ (fun _ _ => rfl) pieces pieces' hp hp')
  · intro hcond o ho pieces pieces' hp hp'
    apply sameMeaning_of_seen (keyboard_made o devout pieces) (keyboard_made o devout pieces')
    by_cases hd : devout = 1
    · rw [hd, keyboard_stdout ho hp.nonempty, keyboard_stdout ho hp'.nonempty]
      show _ ++ (pieces.flatten.map _).map _ = _ ++ (pieces'.flatten.map _).map _
      rw [hp.flatten, hp'.flatten]
      rfl
    · have hno := hcond.resolve_left hd o.status
      have hmeans : ∀ pieces, Splits pieces stream →
          seen (keyboard o devout (State.start pieces)).calls =
            (reading o.status devout false 0 (stream.map (· &&& 0x7F))).1 := by
        intro pieces hp
        have hmeans := (keyboard_reading devout ho hd (start_sound hp) le_rfl).1
        rw [State.predicted, start_reading o devout hp] at hmeans
        exact hmeans (Bool.not_eq_true _ ▸ hno)
      rw [hmeans pieces hp, hmeans pieces' hp']

/-- A break between two letters, in one piece or byte by byte. -/
theorem keyboard_chunking_break :
    let o : Outside := ⟨fun _ n => n, fun _ => 0, none⟩
    SameMeaning (keyboard o 4 (State.start [[97, 0, 98, 99]])).calls
      (keyboard o 4 (State.start [[97], [0], [98], [99]])).calls := by
  have hnone : ∀ status, ¬AsksBefore status 4 [97, 0, 98, 99] := by
    intro status hasks
    have hreads : (reading status 4 false 0 [97, 0, 98, 99]).2 = false := rfl
    exact absurd (hreads.symm.trans hasks) (by simp)
  exact (keyboard_chunking_iff 4 [97, 0, 98, 99]).mpr (.inr hnone) _ (fun _ _ => rfl) _ _
    ⟨rfl, by decide⟩ ⟨rfl, by decide⟩

/-- In command mode an `s`, with the file name right behind it. -/
theorem spawn_not_chunking : ∃ o : Outside, (∀ k n, o.write k n = n) ∧ ∃ pieces pieces',
    Splits pieces [0, 115, 101, 100, 10] ∧ Splits pieces' [0, 115, 101, 100, 10] ∧
      ¬SameMeaning (keyboard o 4 (State.start pieces)).calls
        (keyboard o 4 (State.start pieces')).calls := by
  have hasks : AsksBefore (fun _ => 0) 4 [0, 115, 101, 100, 10] := by
    unfold AsksBefore
    decide
  exact ⟨⟨fun _ n => n, fun _ => 0, none⟩, fun _ _ => rfl, asked_by_chunk (by decide) hasks⟩

end XinuConsole.Console
