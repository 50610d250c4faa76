import Mathlib.Algebra.BigOperators.Group.List.Basic
import XinuConsole.Connectto

/-!
The input filter of `src/xinu-console.c`: `flush2net`, `handlebreak`,
`getInput`, `getFilename` and `subconnect`.

Keyboard bytes arrive at descriptor 0 in pieces, each what one `read` returns.
A chunk that the session loop read is filtered by `flush2net`; in command mode
`handlebreak` goes on reading behind it, one byte at a time, and file names are
read through the C library, which buffers a whole piece. Of what is printed on
the terminal only the echo of a command is kept, and the terminal's modes are
left out.
-/

namespace XinuConsole.Console

open Lib Connectto

@[simp] def escCharacter : Byte := 0
@[simp] def maxFilename : ℕ := 256

/-- The programs that are started from command mode. -/
inductive Started
  | subconnect (cls connectionExt : List Byte) (file : Option (List Byte))
  | spawn (file : List Byte)
  deriving DecidableEq

/-- A call of the operating system, with its result. -/
inductive Call
  | write (fd : ℤ) (bytes : List Byte) (rv : ℤ)
  | echo (ch : Byte)
  | run (program : Started) (status : ℤ)
  | suspend
  deriving DecidableEq

/-- The programs that were started. -/
def programs (calls : List Call) : List Started :=
  calls.filterMap fun
    | .run program _ => some program
    | _ => none

/-- What the surroundings answer: the result of the call number `k` if it
writes `n` bytes, the status of the program number `k` that is started, and the
variable `CS_FILENAME`. -/
structure Outside where
  write : ℕ → ℕ → ℤ
  status : ℕ → ℤ
  envFilename : Option (List Byte)

/-- The static variables, the library's buffer of the standard input, the
pieces still to come, and the calls made. `stdin_len` is the length of `buf`. -/
structure State where
  buf : List Byte
  curr : ℕ
  stdio : List Byte
  pieces : List (List Byte)
  lastDownload : List Byte
  lastSpawn : List Byte
  gotInput : Bool
  calls : List Call

def State.start (pieces : List (List Byte)) : State := ⟨[], 0, [], pieces, [], [], false, []⟩

/-! ### Reading the keyboard -/

/-- Bytes that `getInput` can still return. -/
def State.left (s : State) : ℕ := s.buf.length - s.curr + (s.pieces.map List.length).sum

def getInput (s : State) : Option Byte × State :=
  match s.buf[s.curr]? with
  | some ch => (some ch, { s with curr := s.curr + 1 })
  | none =>
    match s.pieces with
    | [] => (none, s)
    | [] :: ps => (none, { s with pieces := ps })
    | [ch] :: ps => (some ch, { s with pieces := ps })
    | (ch :: p) :: ps => (some ch, { s with pieces := p :: ps })

/-- At most `n` bytes, up to the first newline. -/
def takeLine : ℕ → List Byte → List Byte
  | 0, _ => []
  | _, [] => []
  | n + 1, b :: bs => if b = 10 then [b] else b :: takeLine n bs

/-- `fgets` for at most `n` characters: the line, the library's buffer and the
pieces left. -/
def fgets : ℕ → List Byte → List (List Byte) → List Byte × List Byte × List (List Byte)
  | n, stdio, [] => (takeLine n stdio, stdio.drop (takeLine n stdio).length, [])
  | n, stdio, p :: ps =>
      let line := takeLine n stdio
      if line.length = n ∨ line.getLast? = some 10 then (line, stdio.drop line.length, p :: ps)
      else if p = [] then (line, [], ps)
      else
        let more := fgets (n - line.length) p ps
        (line ++ more.1, more.2)

def getInputString (maxlen : ℕ) (s : State) : Option (List Byte) × State :=
  let got := fgets (maxlen - 2) s.stdio s.pieces
  let s := { s with stdio := got.2.1, pieces := got.2.2 }
  if got.1 = [] then (none, s)
  else
    let str := cstr got.1
    (some (if str.getLast? = some 10 then str.dropLast else str), s)

/-- The name that an empty line stands for. -/
def presetFilename (last : List Byte) (env : Option (List Byte)) (defFile : List Byte) :
    List Byte :=
  if last ≠ [] then last else (env.getD defFile).take (maxFilename - 1)

/-- `getFilename`; the name is what it stores in `last`. -/
def getFilename (last : List Byte) (env : Option (List Byte)) (defFile : List Byte) (s : State) :
    Option (List Byte) × State :=
  match getInputString maxFilename s with
  | (none, s) => (none, s)
  | (some [], s) =>
    let filename := presetFilename last env defFile
    if filename = [] then (none, s) else (some filename, s)
  | (some typed, s) => (some typed, s)

/-! ### Command mode -/

section Session

variable (o : Outside)

def State.issueWrite (s : State) (fd : ℤ) (bytes : List Byte) : ℤ × State :=
  let rv := o.write s.calls.length bytes.length
  (rv, { s with calls := s.calls ++ [.write fd bytes rv] })

def State.echo (s : State) (ch : Byte) : State := { s with calls := s.calls ++ [.echo ch] }

def State.issueRun (s : State) (program : Started) : ℤ × State :=
  let status := o.status (programs s.calls).length
  (status, { s with calls := s.calls ++ [.run program status] })

def subconnect (cls connectionExt : String) (getfile : Bool) (s : State) : ℤ × State :=
  if getfile then
    match getFilename s.lastDownload o.envFilename (text "a.out") s with
    | (none, s) => (-1, s)
    | (some file, s) =>
      { s with lastDownload := file }.issueRun o
        (.subconnect (text cls) (text connectionExt) (some file))
  else s.issueRun o (.subconnect (text cls) (text connectionExt) none)

def spawnconnect (s : State) : ℤ × State :=
  match getFilename s.lastSpawn none (text "a.out") s with
  | (none, s) => (-1, s)
  | (some file, s) => { s with lastSpawn := file }.issueRun o (.spawn file)

/-- One character of command mode: the result if `handlebreak` returns. -/
def command (devout : ℤ) (ch : Byte) (s : State) : Option ℤ × State :=
  let power (cls ext : String) (other : Option ℤ) : Option ℤ × State :=
    let (status, s) := subconnect o cls ext false s
    (if status = 0 then some 1 else other, s)
  if ch = 4 ∨ ch = 113 then power "POWEROFF" "-pf" (some 0)
  else if ch = 120 then (some 0, s)
  else if ch = 99 then (some 1, s)
  else if ch = 122 then (none, { s with calls := s.calls ++ [.suspend] })
  else if ch = 98 then (some 1, (s.issueWrite o devout (text "\\b")).2)
  else if ch = 100 then
    let (status, s) := subconnect o "DOWNLOAD" "-dl" true s
    (if status = 0 then some 1 else none, s)
  else if ch = 112 then power "POWERCYCLE" "-pc" none
  else if ch = 102 then power "POWEROFF" "-pf" none
  else if ch = 110 then power "POWERON" "-pn" none
  else if ch = 115 then (none, (spawnconnect o s).2)
  -- help, empty lines and unknown characters
  else (none, s)

/-! The loop ends because every round reads a byte. -/

theorem getInput_frame (s : State) :
    (getInput s).2.buf = s.buf ∧ s.curr ≤ (getInput s).2.curr := by
  unfold getInput
  split
  · exact ⟨rfl, Nat.le_succ _⟩
  · split <;> exact ⟨rfl, le_rfl⟩

theorem left_getInput {s s' : State} {ch : Byte} (h : getInput s = (some ch, s')) :
    s'.left < s.left := by
  unfold getInput at h
  cases hbuf : s.buf[s.curr]? with
  | some c =>
      rw [hbuf] at h
      obtain ⟨-, rfl⟩ := Prod.mk.inj h
      have := (List.getElem?_eq_some_iff.mp hbuf).1
      simp only [State.left]
      omega
  | none =>
      rw [hbuf] at h
      dsimp only at h
      split at h
      · exact absurd h (by simp)
      · exact absurd h (by simp)
      · next hp =>
        obtain ⟨-, rfl⟩ := Prod.mk.inj h
        simp [State.left, hp]
      · next hp =>
        obtain ⟨-, rfl⟩ := Prod.mk.inj h
        simp [State.left, hp]

theorem length_fgets_le (n : ℕ) (stdio : List Byte) (pieces : List (List Byte)) :
    ((fgets n stdio pieces).2.2.map List.length).sum ≤ (pieces.map List.length).sum := by
  induction pieces generalizing n stdio with
  | nil => simp [fgets]
  | cons p ps ih =>
      unfold fgets
      dsimp only
      split
      · rfl
      split
      · simp
      · have := ih (n - (takeLine n stdio).length) p
        simp only [List.map_cons, List.sum_cons]
        omega

/-- Reading a file name leaves the chunk alone. -/
theorem left_getFilename (last : List Byte) (env : Option (List Byte)) (defFile : List Byte)
    (s : State) :
    let r := getFilename last env defFile s
    r.2.left ≤ s.left ∧ r.2.buf = s.buf ∧ r.2.curr = s.curr := by
  have hstring : ∀ r, getInputString maxFilename s = r →
      r.2.left ≤ s.left ∧ r.2.buf = s.buf ∧ r.2.curr = s.curr := by
    rintro r rfl
    have := length_fgets_le (maxFilename - 2) s.stdio s.pieces
    unfold getInputString
    dsimp only
    split <;> exact ⟨Nat.add_le_add_left this _, rfl, rfl⟩
  dsimp only
  unfold getFilename
  split
  · next s' hs' => exact hstring _ hs'
  · next s' hs' =>
    have hframe := hstring _ hs'
    dsimp only
    split <;> exact hframe
  · next typed s' _ hs' => exact hstring _ hs'

theorem left_subconnect (cls ext : String) (getfile : Bool) (s : State) :
    let r := subconnect o cls ext getfile s
    r.2.left ≤ s.left ∧ r.2.buf = s.buf ∧ r.2.curr = s.curr := by
  have h := left_getFilename s.lastDownload o.envFilename (text "a.out") s
  unfold subconnect
  split
  · rcases hf : getFilename s.lastDownload o.envFilename (text "a.out") s with ⟨_ | file, s'⟩ <;>
      rw [hf] at h <;> exact h
  · exact ⟨le_rfl, rfl, rfl⟩

theorem left_command (devout : ℤ) (ch : Byte) (s : State) :
    let r := command o devout ch s
    r.2.left ≤ s.left ∧ r.2.buf = s.buf ∧ r.2.curr = s.curr := by
  have hsub := left_subconnect o
  have hspawn : (spawnconnect o s).2.left ≤ s.left ∧ (spawnconnect o s).2.buf = s.buf ∧
      (spawnconnect o s).2.curr = s.curr := by
    have h := left_getFilename s.lastSpawn none (text "a.out") s
    unfold spawnconnect
    rcases hf : getFilename s.lastSpawn none (text "a.out") s with ⟨_ | file, s'⟩ <;>
      rw [hf] at h <;> exact h
  have hsame : s.left ≤ s.left ∧ s.buf = s.buf ∧ s.curr = s.curr := ⟨le_rfl, rfl, rfl⟩
  -- the commands are tried one after the other
  have helse {c : Prop} [Decidable c] {x y : Option ℤ × State}
      (hx : x.2.left ≤ s.left ∧ x.2.buf = s.buf ∧ x.2.curr = s.curr)
      (hy : y.2.left ≤ s.left ∧ y.2.buf = s.buf ∧ y.2.curr = s.curr) :
      (if c then x else y).2.left ≤ s.left ∧ (if c then x else y).2.buf = s.buf ∧
        (if c then x else y).2.curr = s.curr := by
    split
    · exact hx
    · exact hy
  unfold command
  refine helse (hsub "POWEROFF" "-pf" false s) ?_
  refine helse hsame ?_
  refine helse hsame ?_
  refine helse hsame ?_
  refine helse hsame ?_
  refine helse (hsub "DOWNLOAD" "-dl" true s) ?_
  refine helse (hsub "POWERCYCLE" "-pc" false s) ?_
  refine helse (hsub "POWEROFF" "-pf" false s) ?_
  refine helse (hsub "POWERON" "-pn" false s) ?_
  exact helse hspawn hsame

/-- `handlebreak`: command mode until a command leaves it or the input ends. -/
def handlebreak (devout : ℤ) (s : State) : ℤ × State :=
  match _h : getInput s with
  | (none, s) => (0, s)
  | (some ch, s₁) =>
    match _hc : command o devout (ch &&& 0x7F) (s₁.echo (ch &&& 0x7F)) with
    | (some rv, s₂) => (rv, s₂)
    | (none, s₂) => handlebreak devout s₂
termination_by s.left
decreasing_by
  have h₁ := left_getInput _h
  have h₂ := (left_command o devout (ch &&& 0x7F) (s₁.echo (ch &&& 0x7F))).1
  rw [_hc] at h₂
  exact h₂.trans_lt h₁

/-- Command mode does not go back in the chunk. -/
theorem handlebreak_frame (devout : ℤ) (s : State) :
    (handlebreak o devout s).2.buf = s.buf ∧ s.curr ≤ (handlebreak o devout s).2.curr := by
  rw [handlebreak]
  have h₁ := getInput_frame s
  split
  · next s₁ h =>
    rw [h] at h₁
    exact h₁
  · next ch s₁ h =>
    rw [h] at h₁
    obtain ⟨-, hbuf, hcurr⟩ := left_command o devout (ch &&& 0x7F) (s₁.echo (ch &&& 0x7F))
    have hleft := left_getInput h
    split
    · next rv s₂ hc =>
      rw [hc] at hbuf hcurr
      exact ⟨hbuf.trans h₁.1, h₁.2.trans hcurr.ge⟩
    · next s₂ hc =>
      have hlt : s₂.left < s.left := by
        have h₂ := (left_command o devout (ch &&& 0x7F) (s₁.echo (ch &&& 0x7F))).1
        rw [hc] at h₂
        exact h₂.trans_lt hleft
      rw [hc] at hbuf hcurr
      have ih := handlebreak_frame devout s₂
      exact ⟨ih.1.trans (hbuf.trans h₁.1), (h₁.2.trans hcurr.ge).trans ih.2⟩
termination_by s.left

/-! ### The filter -/

/-- A write of the `clen` bytes from `start` on, and whether all of them went
out. -/
def State.sendRange (s : State) (devout : ℤ) (start clen : ℕ) : Bool × State :=
  let r := s.issueWrite o devout ((s.buf.drop start).take clen)
  (¬r.1 < clen, r.2)

/-- The same, left out for an empty range. -/
def State.sendPending (s : State) (devout : ℤ) (start clen : ℕ) : Bool × State :=
  if 0 < clen then s.sendRange o devout start clen else (true, s)

theorem sendPending_frame (s : State) (devout : ℤ) (start clen : ℕ) :
    (s.sendPending o devout start clen).2.buf = s.buf ∧
      (s.sendPending o devout start clen).2.curr = s.curr := by
  unfold State.sendPending
  split <;> exact ⟨rfl, rfl⟩

/-- The loop of `flush2net`: `start` is the first byte not sent. -/
def flush2netLoop (devout : ℤ) (start : ℕ) (s : State) : ℤ × State :=
  if _h : s.curr < s.buf.length then
    let ch := s.buf[s.curr]
    let read := { s with curr := s.curr + 1 }
    if ch = 92 then
      let sent := read.sendRange o devout start (read.curr - start)
      if sent.1 = false then (start, sent.2)
      else
        let doubled := sent.2.issueWrite o devout [92]
        if doubled.1 ≠ 1 then (start, doubled.2)
        else flush2netLoop devout doubled.2.curr doubled.2
    else if ch = escCharacter then
      let sent := read.sendPending o devout start (read.curr - start - 1)
      if sent.1 = false then (start, sent.2)
      else
        let broken := handlebreak o devout sent.2
        if broken.1 ≤ 0 then broken else flush2netLoop devout broken.2.curr broken.2
    else flush2netLoop devout start read
  else if s.curr ≠ start then
    let sent := s.sendRange o devout start (s.curr - start)
    if sent.1 = false then (start, sent.2) else (s.buf.length, sent.2)
  else (s.buf.length, s)
termination_by s.buf.length - s.curr
decreasing_by
  · change s.buf.length - (s.curr + 1) < s.buf.length - s.curr
    omega
  · obtain ⟨h₁, h₂⟩ := sendPending_frame o read devout start (read.curr - start - 1)
    obtain ⟨h₃, h₄⟩ := handlebreak_frame o devout sent.2
    have hless : ∀ s' : State, s'.buf = s.buf → s.curr + 1 ≤ s'.curr →
        s'.buf.length - s'.curr < s.buf.length - s.curr := by
      intro s' hbuf hcurr
      rw [hbuf]
      omega
    exact hless _ (h₃.trans h₁) (h₂.ge.trans h₄)
  · omega

/-- `flush2net`. -/
def flush2net (devout : ℤ) (buf : List Byte) (s : State) : ℤ × State :=
  flush2netLoop o devout 0
    { s with buf := buf.map (· &&& 0x7F), curr := 0, gotInput := true }

/-- `flushdata`; the descriptor of the standard output is 1. -/
def flushdata (transparent : Bool) (devout : ℤ) (buf : List Byte) (s : State) : ℤ × State :=
  if transparent = true then s.issueWrite o devout buf
  else if devout = 1 then s.issueWrite o devout (buf.map (· &&& 0x7F))
  else flush2net o devout buf s

end Session

/-! ### Data only, all writes complete -/

/-- The bytes of a call that one descriptor accepted. -/
def Call.sentOn (fd : ℤ) : Call → List Byte
  | .write fd' bytes rv => if fd' = fd then bytes.take rv.toNat else []
  | _ => []

def sentOn (fd : ℤ) (calls : List Call) : List Byte := calls.flatMap (Call.sentOn fd)

theorem sentOn_append (fd : ℤ) (calls more : List Call) :
    sentOn fd (calls ++ more) = sentOn fd calls ++ sentOn fd more := List.flatMap_append

/-- Between `calls` and `calls'` one descriptor was sent `bytes`, and no other anything. -/
def Sends (devout : ℤ) (bytes : List Byte) (calls calls' : List Call) : Prop :=
  ∀ fd, sentOn fd calls' = sentOn fd calls ++ if fd = devout then bytes else []

theorem Sends.refl (devout : ℤ) (calls : List Call) : Sends devout [] calls calls :=
  fun fd => by simp

theorem Sends.trans {devout : ℤ} {bytes bytes' : List Byte} {calls calls' calls'' : List Call}
    (h : Sends devout bytes calls calls') (h' : Sends devout bytes' calls' calls'') :
    Sends devout (bytes ++ bytes') calls calls'' := by
  intro fd
  rw [h' fd, h fd]
  split <;> simp

theorem Sends.own {devout : ℤ} {bytes : List Byte} {calls calls' : List Call}
    (h : Sends devout bytes calls calls') :
    sentOn devout calls' = sentOn devout calls ++ bytes := by
  rw [h devout, if_pos rfl]

theorem Sends.other {devout : ℤ} {bytes : List Byte} {calls calls' : List Call}
    (h : Sends devout bytes calls calls') {fd : ℤ} (hfd : fd ≠ devout) :
    sentOn fd calls' = sentOn fd calls := by
  rw [h fd, if_neg hfd, List.append_nil]

theorem mask_ne_zero {b : Byte} (h₀ : b ≠ 0) (h₁ : b ≠ 0x80) : b &&& 0x7F ≠ 0 := by
  intro h
  have hb : b.toNat % 128 = 0 := by
    have := congrArg UInt8.toNat h
    rw [UInt8.toNat_and] at this
    exact (Nat.and_two_pow_sub_one_eq_mod b.toNat 7).symm.trans this
  have hlt := UInt8.toNat_lt b
  have hcases : b.toNat = 0 ∨ b.toNat = 128 := by omega
  rcases hcases with hb | hb
  · exact h₀ (UInt8.toNat_inj.mp hb)
  · exact h₁ (UInt8.toNat_inj.mp hb)

section Complete

variable {o : Outside} (ho : ∀ k n, o.write k n = n)
include ho

theorem issueWrite_complete (s : State) (fd : ℤ) (bytes : List Byte) :
    ∃ calls, s.issueWrite o fd bytes = ((bytes.length : ℤ), { s with calls := calls }) ∧
      Sends fd bytes s.calls calls := by
  refine ⟨_, by rw [State.issueWrite, ho], fun fd' => ?_⟩
  simp [sentOn, Call.sentOn, eq_comm]

theorem sendRange_complete (s : State) (fd : ℤ) {start clen : ℕ}
    (h : start + clen ≤ s.buf.length) :
    ∃ calls, s.sendRange o fd start clen = (true, { s with calls := calls }) ∧
      Sends fd ((s.buf.drop start).take clen) s.calls calls := by
  obtain ⟨calls, hw, hsent⟩ := issueWrite_complete ho s fd ((s.buf.drop start).take clen)
  refine ⟨calls, ?_, hsent⟩
  have hlen : ((s.buf.drop start).take clen).length = clen := by
    rw [List.length_take, List.length_drop]
    omega
  rw [State.sendRange, hw, hlen]
  simp

/-- The loop sends the code of what is behind `start`. -/
theorem flush2netLoop_complete (devout : ℤ) (start : ℕ) (s : State) (hstart : start ≤ s.curr)
    (hcurr : s.curr ≤ s.buf.length) (hdata : ∀ b ∈ s.buf, b ≠ escCharacter)
    (hplain : streamCode.esc ∉ (s.buf.drop start).take (s.curr - start)) :
    let r := flush2netLoop o devout start s
    r.1 = s.buf.length ∧
      Sends devout (streamCode.encode (s.buf.drop start)) s.calls r.2.calls := by
  induction hn : s.buf.length - s.curr generalizing start s with
  | zero =>
      have hend : s.curr = s.buf.length := by omega
      have hall : (s.buf.drop start).take (s.curr - start) = s.buf.drop start := by
        rw [hend]
        exact List.take_of_length_le (by rw [List.length_drop])
      rw [hall] at hplain
      dsimp only
      rw [flush2netLoop, dif_neg (by omega), streamCode.encode_of_not_mem hplain]
      by_cases hs : s.curr = start
      · rw [if_neg (not_not.mpr hs), List.drop_of_length_le (by omega)]
        exact ⟨rfl, Sends.refl devout s.calls⟩
      · rw [if_pos hs]
        obtain ⟨calls, hw, hsent⟩ := sendRange_complete ho s devout
          (show start + (s.curr - start) ≤ s.buf.length by omega)
        simp only [hw, Bool.true_eq_false, if_false]
        rw [hall] at hsent
        exact ⟨trivial, hsent⟩
  | succ n ih =>
      have hlt : s.curr < s.buf.length := by omega
      have hdrop : s.buf.drop s.curr = s.buf[s.curr] :: s.buf.drop (s.curr + 1) :=
        List.drop_eq_getElem_cons hlt
      have hsplit : s.buf.drop start =
          (s.buf.drop start).take (s.curr - start) ++ s.buf.drop s.curr := by
        have h := List.take_append_drop (s.curr - start) (s.buf.drop start)
        rwa [List.drop_drop, show start + (s.curr - start) = s.curr by omega, eq_comm] at h
      have hnext : (s.buf.drop start).take (s.curr + 1 - start) =
          (s.buf.drop start).take (s.curr - start) ++ [s.buf[s.curr]] := by
        rw [show s.curr + 1 - start = s.curr - start + 1 by omega, List.take_add_one,
          List.getElem?_drop, show start + (s.curr - start) = s.curr by omega,
          List.getElem?_eq_getElem hlt]
        rfl
      dsimp only
      rw [flush2netLoop, dif_pos hlt]
      by_cases hch : s.buf[s.curr] = 92
      · -- the range up to the backslash and a second backslash
        obtain ⟨calls, hw, hsent⟩ := sendRange_complete ho { s with curr := s.curr + 1 } devout
          (show start + (s.curr + 1 - start) ≤ s.buf.length by omega)
        obtain ⟨calls', hw', hsent'⟩ := issueWrite_complete ho
          { s with curr := s.curr + 1, calls := calls } devout [92]
        simp only [hch, if_true, hw, Bool.true_eq_false, if_false, hw', List.length_singleton,
          Nat.cast_one, ne_eq, not_true]
        obtain ⟨h₁, h₂⟩ := ih (s.curr + 1) { s with curr := s.curr + 1, calls := calls' } le_rfl hlt
          hdata (by simp) (by simp only; omega)
        refine ⟨h₁, ?_⟩
        have henc : streamCode.encode (s.buf.drop start) =
            (s.buf.drop start).take (s.curr - start) ++ [92, 92] ++
              streamCode.encode (s.buf.drop (s.curr + 1)) :=
          calc streamCode.encode (s.buf.drop start)
              = streamCode.encode ((s.buf.drop start).take (s.curr - start) ++ s.buf.drop s.curr) :=
                congrArg _ hsplit
            _ = (s.buf.drop start).take (s.curr - start) ++
                  streamCode.encode (92 :: s.buf.drop (s.curr + 1)) := by
                rw [EscapeCode.encode_append, streamCode.encode_of_not_mem hplain, hdrop, hch]
            _ = _ := by
                rw [List.append_assoc]
                rfl
        have hall := (hsent.trans hsent').trans h₂
        dsimp only at hall
        rw [hnext, hch] at hall
        rw [henc]
        simpa using hall
      · -- one more byte in the range
        have hesc : ¬s.buf[s.curr] = escCharacter := hdata _ (List.getElem_mem hlt)
        simp only [if_neg hch, if_neg hesc]
        have hplain' : streamCode.esc ∉ (s.buf.drop start).take (s.curr + 1 - start) := by
          rw [hnext, List.mem_append, List.mem_singleton, not_or]
          exact ⟨hplain, Ne.symm hch⟩
        exact ih start { s with curr := s.curr + 1 } (Nat.le_succ_of_le hstart) hlt hdata hplain'
          (by simp only; omega)

/-- A chunk without the escape character goes out as the code of its masked
bytes, and is taken whole. -/
theorem flushdata_complete {devout : ℤ} (hd : devout ≠ 1) {buf : List Byte}
    (hbuf : ∀ b ∈ buf, b ≠ 0 ∧ b ≠ 0x80) (s : State) :
    let r := flushdata o false devout buf s
    r.1 = buf.length ∧
      Sends devout (streamCode.encode (buf.map (· &&& 0x7F))) s.calls r.2.calls := by
  have hdata : ∀ b ∈ buf.map (· &&& 0x7F), b ≠ escCharacter := by
    intro b hb
    obtain ⟨b, hmem, rfl⟩ := List.mem_map.mp hb
    exact mask_ne_zero (hbuf b hmem).1 (hbuf b hmem).2
  obtain ⟨h₁, h₂⟩ := flush2netLoop_complete ho devout 0
    { s with buf := buf.map (· &&& 0x7F), curr := 0, gotInput := true } le_rfl (Nat.zero_le _) hdata
    (by simp)
  simp only [flushdata, Bool.false_eq_true, if_false, hd, flush2net]
  exact ⟨by simpa using h₁, h₂⟩

theorem filterChunks_complete {devout : ℤ} (hd : devout ≠ 1) {chunks : List (List Byte)}
    (hkeys : ∀ b ∈ chunks.flatten, b ≠ 0 ∧ b ≠ 0x80) (s : State) :
    let r := filterChunks (flushdata o false devout) chunks s
    (r.1 = chunks.map fun buf => (buf.length : ℤ)) ∧
      Sends devout (streamCode.encode (chunks.flatten.map (· &&& 0x7F))) s.calls r.2.calls := by
  induction chunks generalizing s with
  | nil => exact ⟨rfl, Sends.refl devout s.calls⟩
  | cons buf chunks ih =>
      simp only [List.flatten_cons, List.forall_mem_append] at hkeys
      obtain ⟨h₁, h₂⟩ := flushdata_complete ho hd hkeys.1 s
      obtain ⟨h₃, h₄⟩ := ih hkeys.2 (flushdata o false devout buf s).2
      dsimp only at h₁ h₂ h₃ h₄ ⊢
      rw [filterChunks]
      refine ⟨by rw [List.map_cons, h₁, h₃], ?_⟩
      rw [List.flatten_cons, List.map_append, EscapeCode.encode_append]
      exact h₂.trans h₄

end Complete

end XinuConsole.Console
