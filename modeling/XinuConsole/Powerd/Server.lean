import XinuConsole.Powerd.Commands

/-!
The clients of the power daemon: `get_command` and the loop of `main` in
`src/xinu-powerd.c`.

`get_command` receives once into a buffer on its stack and copies
`VALID_CMD_LEN` bytes out of it, whatever number of bytes the call delivered.
-/

namespace XinuConsole.Powerd

open Lib

@[simp] def recvBufLen : ℕ := 128

def msgInvalid : List Byte := text "Invalid command. Sorry!\n"
def msgSuccess : List Byte := text "Command executed successfully.\n"

/-- `recv( connected_sockfd, buf, len, 0 )` on what TCP delivers in these
segments: bytes of the first one, none when the client closed. -/
def recv (segments : List (List Byte)) (len : ℕ) : List Byte := (segments.headD []).take len

/-- `get_command`: the command accepted, with its terminator. `received` is the
result of `recv`, nothing on an error, and `recvbuf` the buffer before it. -/
def getCommand (received : Option (List Byte)) (recvbuf : CharArray recvBufLen) :
    Option (List Byte) := do
  let bytes ← received
  let receivedCmd := strncpyBytes (recvbuf.store bytes).val validCmdLen ++ [0]
  if validCommand receivedCmd then some receivedCmd else none

/-- The message `main` sends for a result of `execute_command`. -/
def answer (rv : ℤ) : List Byte := if rv = -1 then msgInvalid else msgSuccess

/-- What one turn of the loop of `main` meets: the answer of `hosts_ctl`, the
result of `recv`, the bytes on the stack, the answers of the system while the
command is executed and the result of `send`. -/
structure Client where
  hostsCtl : Bool
  received : Option (List Byte)
  recvbuf : CharArray recvBufLen
  answers : Answers
  sent : ℤ

/-- What a turn of the loop did. -/
structure Served where
  daemon : State
  cmd : Option (List Byte)
  writes : List Write
  mesg : Option (List Byte)
  running : Bool

/-- A turn of the loop of `main`. -/
def serve (s : State) (k : Client) : Option Served :=
  if k.hostsCtl = false then some ⟨s, none, [], none, true⟩
  else match getCommand k.received k.recvbuf with
    | none => some ⟨s, none, [], none, true⟩
    | some cmd =>
        (executeCommand k.answers s cmd).map fun r =>
          ⟨r.2.1, some cmd, r.2.2, some (answer r.1), 0 < k.sent⟩

theorem validCommand_of_getCommand {received : Option (List Byte)} {recvbuf : CharArray recvBufLen}
    {cmd : List Byte} (h : getCommand received recvbuf = some cmd) : validCommand cmd = true := by
  cases received with
  | none => exact absurd h (by simp [getCommand])
  | some bytes =>
      simp only [getCommand, Option.bind_eq_bind, Option.bind_some, Option.ite_none_right_eq_some,
        Option.some.injEq] at h
      obtain ⟨hvalid, rfl⟩ := h
      exact hvalid

/-! ### A connection and its bytes -/

/-- A connection: the segments in which the client's bytes arrive and what the
receive buffer holds before. -/
structure Connection where
  segments : List (List Byte)
  recvbuf : CharArray recvBufLen
  segments_ne_nil : ∀ seg ∈ segments, seg ≠ []

namespace Connection

variable (k : Connection)

/-- All bytes the client sends. -/
def stream : List Byte := k.segments.flatten

/-- The first segment: nothing if the client closed at once. -/
def first : List Byte := k.segments.headD []

/-- The same connection with other old bytes in the buffer. -/
def withBuf (recvbuf : CharArray recvBufLen) : Connection := { k with recvbuf := recvbuf }

/-- The bytes that the one call of `recv` delivers. -/
def received : List Byte := recv k.segments recvBufLen

/-- The command that `get_command` accepts. -/
def command : Option (List Byte) := getCommand (some k.received) k.recvbuf

/-- The front of the receive buffer after the call: where fewer bytes than a
command has were received, old bytes stand behind them. -/
def front : List Byte := (k.received ++ k.recvbuf.val.drop k.received.length).take validCmdLen

end Connection

/-- A command in the first bytes of a stream. -/
def commandOf (stream : List Byte) : Option (List Byte) :=
  if validCommand (stream.take validCmdLen ++ [0]) then some (stream.take validCmdLen ++ [0])
  else none

/-- The bytes are the beginning of a valid command. -/
def Begins (bs : List Byte) : Prop :=
  ∃ cmd, cmd.length = validCmdLen ∧ validCommand (cmd ++ [0]) = true ∧ bs <+: cmd

/-- The bytes an earlier client left behind. -/
def staleBuffer (cmd : List Byte) : CharArray recvBufLen := (CharArray.zero recvBufLen).store cmd

/-! ### What is copied out of the buffer -/

theorem length_of_validCommand {cmd : List Byte} (h : validCommand cmd = true) :
    (cstr cmd).length = validCmdLen := by
  by_contra hlen
  rw [validCommand, if_pos hlen] at h
  exact absurd h (by simp)

theorem validCommand_false {cmd : List Byte} (h : (cstr cmd).length ≠ validCmdLen) :
    validCommand cmd = false := by
  rw [validCommand, if_pos h]

/-- `strncpy` and a plain copy give the same command or none. -/
theorem commandOf_strncpyBytes (bs : List Byte) :
    (if validCommand (strncpyBytes bs validCmdLen ++ [0]) then
      some (strncpyBytes bs validCmdLen ++ [0]) else none) = commandOf bs := by
  by_cases hlen : ((cstr bs).take validCmdLen).length = validCmdLen
  · have hcopy : strncpyBytes bs validCmdLen = bs.take validCmdLen := by
      have hle : validCmdLen ≤ (cstr bs).length := by
        rw [List.length_take] at hlen
        omega
      have hpre : (cstr bs).take validCmdLen = bs.take validCmdLen := by
        rw [← cstr_take] at hlen ⊢
        apply (List.takeWhile_prefix _).eq_of_length
        apply le_antisymm (cstr_length_le _)
        exact (List.length_take_le _ _).trans hlen.ge
      rw [strncpyBytes, hpre, Nat.sub_eq_zero_of_le hle, List.replicate_zero, List.append_nil]
    rw [hcopy, commandOf]
  · have h₁ : validCommand (strncpyBytes bs validCmdLen ++ [0]) = false := by
      apply validCommand_false
      rwa [cstr_strncpyBytes]
    have h₂ : validCommand (bs.take validCmdLen ++ [0]) = false := by
      apply validCommand_false
      rwa [cstr_append_singleton_zero, cstr_take]
    rw [commandOf, h₁, h₂]
    rfl

/-- The accepted command of a stream is its first bytes, and there are enough
of them. -/
theorem commandOf_eq_some {stream cmd : List Byte} (h : commandOf stream = some cmd) :
    validCommand cmd = true ∧ validCmdLen ≤ stream.length ∧
      cmd = stream.take validCmdLen ++ [0] := by
  rw [commandOf, Option.ite_none_right_eq_some, Option.some.injEq] at h
  obtain ⟨hvalid, rfl⟩ := h
  refine ⟨hvalid, ?_, rfl⟩
  have hlen := length_of_validCommand hvalid
  rw [cstr_append_singleton_zero] at hlen
  calc validCmdLen = (cstr (stream.take validCmdLen)).length := hlen.symm
    _ ≤ (stream.take validCmdLen).length := cstr_length_le _
    _ ≤ stream.length := List.length_take_le' _ _

/-- Bytes that begin no valid command are not completed to one. -/
theorem commandOf_eq_none {bs stream : List Byte} (h : ¬Begins bs) (hpre : bs <+: stream)
    (hlen : bs.length < validCmdLen) : commandOf stream = none := by
  rw [commandOf, if_neg]
  intro hvalid
  have hle : validCmdLen ≤ stream.length := by
    have hsome : commandOf stream = some (stream.take validCmdLen ++ [0]) := by
      rw [commandOf, if_pos hvalid]
    exact (commandOf_eq_some hsome).2.1
  refine h ⟨stream.take validCmdLen, by rw [List.length_take]; omega, hvalid, ?_⟩
  exact List.prefix_take_iff.mpr ⟨hpre, hlen.le⟩

theorem Begins.of_prefix {bs bs' : List Byte} (h : Begins bs') (hpre : bs <+: bs') : Begins bs := by
  obtain ⟨cmd, hlen, hvalid, hbegin⟩ := h
  exact ⟨cmd, hlen, hvalid, hpre.trans hbegin⟩

namespace Connection

variable (k : Connection)

theorem received_length_le : k.received.length ≤ recvBufLen :=
  List.length_take_le _ _

theorem command_eq_front : k.command = commandOf k.front := by
  have hstore : (k.recvbuf.store k.received).val =
      k.received ++ k.recvbuf.val.drop k.received.length := by
    show k.received.take recvBufLen ++ _ = _
    rw [List.take_of_length_le k.received_length_le]
  have : k.command = _ := commandOf_strncpyBytes (k.recvbuf.store k.received).val
  rw [this, hstore, commandOf, commandOf, front, List.take_take, Nat.min_self]

/-- Where a whole command was received, it is the front of the stream. -/
theorem front_of_le (h : validCmdLen ≤ k.received.length) :
    k.front = k.stream.take validCmdLen := by
  rw [front, List.take_append_of_le_length h, received, recv, stream]
  rw [received, recv] at h
  cases hs : k.segments with
  | nil => rfl
  | cons seg segs =>
      rw [hs, List.headD_cons, List.length_take] at h
      rw [List.headD_cons, List.take_take, List.flatten_cons,
        List.take_append_of_le_length (h.trans (min_le_right _ _))]
      rfl

theorem first_prefix_stream : k.first <+: k.stream := by
  rw [first, stream]
  cases k.segments with
  | nil => exact List.nil_prefix
  | cons seg segs => exact List.prefix_append _ _

section Short

variable {k} (hshort : k.first.length < validCmdLen)
include hshort

theorem received_of_short : k.received = k.first :=
  List.take_of_length_le (hshort.le.trans (by decide))

theorem first_prefix_front : k.first <+: k.front := by
  rw [front, received_of_short hshort]
  exact List.prefix_take_iff.mpr ⟨List.prefix_append _ _, hshort.le⟩

/-- The rest of a command that an earlier client sent completes the first bytes. -/
theorem command_stale {cmd : List Byte} (hlen : cmd.length = validCmdLen)
    (hvalid : validCommand (cmd ++ [0]) = true) (hpre : k.first <+: cmd) :
    (k.withBuf (staleBuffer cmd)).command = some (cmd ++ [0]) := by
  have hbuf : (staleBuffer cmd).val = cmd ++ (CharArray.zero recvBufLen).val.drop cmd.length := by
    show cmd.take recvBufLen ++ _ = _
    rw [List.take_of_length_le (by rw [hlen]; decide)]
  have hfront : (k.withBuf (staleBuffer cmd)).front = cmd := by
    have hreceived : (k.withBuf (staleBuffer cmd)).received = k.first := received_of_short hshort
    obtain ⟨rest, rfl⟩ := hpre
    rw [front, hreceived]
    show (k.first ++ (staleBuffer _).val.drop k.first.length).take validCmdLen = _
    rw [hbuf, List.append_assoc, List.drop_left, ← List.append_assoc, ← hlen, List.take_left]
  rw [command_eq_front, hfront, commandOf, List.take_of_length_le hlen.le, if_pos hvalid]

/-- Over zeroes they make no command. -/
theorem command_zero : (k.withBuf (CharArray.zero recvBufLen)).command = none := by
  have hreceived : (k.withBuf (CharArray.zero recvBufLen)).received = k.first :=
    received_of_short hshort
  have hfront : (k.withBuf (CharArray.zero recvBufLen)).front =
      k.first ++ List.replicate (validCmdLen - k.first.length) 0 := by
    rw [front, hreceived]
    show (k.first ++ (List.replicate recvBufLen 0).drop k.first.length).take validCmdLen = _
    rw [List.drop_replicate, List.take_append, List.take_of_length_le hshort.le, List.take_replicate,
      min_eq_left (Nat.sub_le_sub_right (by decide) _)]
  rw [command_eq_front, hfront, commandOf, if_neg]
  rw [Bool.not_eq_true]
  apply validCommand_false
  -- the string ends at the first of the zeroes
  obtain ⟨n, hn⟩ := Nat.exists_eq_add_of_lt hshort
  have hzeroes : List.replicate (validCmdLen - k.first.length) (0 : Byte) =
      0 :: List.replicate n 0 := by
    rw [hn, show k.first.length + n + 1 - k.first.length = n + 1 by omega, List.replicate_succ]
  have hwhole : (k.first ++ 0 :: List.replicate n 0).length ≤ validCmdLen := by
    rw [List.length_append, List.length_cons, List.length_replicate]
    omega
  rw [hzeroes, cstr_append_singleton_zero, List.take_of_length_le hwhole]
  exact ((cstr_append_zero_length_le _ _).trans_lt hshort).ne

end Short

/-- What decides that old bytes make no difference. -/
def Decided : Prop := validCmdLen ≤ k.first.length ∨ ¬Begins k.first

theorem command_of_decided (h : k.Decided) : k.command = commandOf k.stream := by
  by_cases hlong : validCmdLen ≤ k.first.length
  · have hreceived : validCmdLen ≤ k.received.length := by
      rw [received, recv, ← first, List.length_take]
      exact le_min (by decide) hlong
    rw [command_eq_front, k.front_of_le hreceived, commandOf, List.take_take, Nat.min_self]
    rfl
  · have hshort := not_le.mp hlong
    have hnone := h.resolve_left hlong
    rw [command_eq_front, commandOf_eq_none hnone (first_prefix_front hshort) hshort,
      commandOf_eq_none hnone k.first_prefix_stream hshort]

/-- Otherwise two contents of the buffer give different commands. -/
theorem exists_differ (h : ¬k.Decided) : ∃ recvbuf recvbuf',
    (k.withBuf recvbuf).command ≠ (k.withBuf recvbuf').command := by
  obtain ⟨hshort, hbegins⟩ := not_or.mp h
  obtain ⟨cmd, hlen, hvalid, hpre⟩ := not_not.mp hbegins
  refine ⟨staleBuffer cmd, CharArray.zero _, ?_⟩
  rw [command_stale (not_le.mp hshort) hlen hvalid hpre, command_zero (not_le.mp hshort)]
  simp

end Connection

/-- The stream in two segments, the first of one byte. -/
def byteFirst (stream : List Byte) (recvbuf : CharArray recvBufLen) : Connection where
  segments := [stream.take 1, stream.drop 1].filter (· ≠ [])
  recvbuf := recvbuf
  segments_ne_nil seg hseg := by simpa using (List.mem_filter.mp hseg).2

theorem byteFirst_stream (stream : List Byte) (recvbuf : CharArray recvBufLen) :
    (byteFirst stream recvbuf).stream = stream := by
  unfold Connection.stream byteFirst
  rcases stream with _ | ⟨b, _ | ⟨c, rest⟩⟩ <;> simp

theorem byteFirst_first (stream : List Byte) (recvbuf : CharArray recvBufLen) :
    (byteFirst stream recvbuf).first = stream.take 1 := by
  unfold Connection.first byteFirst
  rcases stream with _ | ⟨b, _ | ⟨c, rest⟩⟩ <;> rfl

/-- The first segment begins with the first byte of the stream. -/
theorem Connection.take_one_prefix (k : Connection) : k.stream.take 1 <+: k.first := by
  rw [Connection.stream, Connection.first]
  cases hs : k.segments with
  | nil => exact List.nil_prefix
  | cons seg segs =>
      obtain ⟨b, bs, rfl⟩ := List.exists_cons_of_ne_nil (k.segments_ne_nil seg (by simp [hs]))
      exact ⟨bs, rfl⟩

theorem decided_of_stream {k : Connection} (h : ¬Begins (k.stream.take 1)) : k.Decided :=
  .inr fun hbegins => h (hbegins.of_prefix k.take_one_prefix)

/-- A stream whose first byte begins a command is not decided if that byte comes alone. -/
theorem byteFirst_not_decided {stream : List Byte} (h : Begins (stream.take 1))
    (recvbuf : CharArray recvBufLen) : ¬(byteFirst stream recvbuf).Decided := by
  rintro (hlong | hnone)
  · rw [byteFirst_first] at hlong
    exact absurd (hlong.trans (List.length_take_le 1 stream)) (by decide)
  · rw [byteFirst_first] at hnone
    exact hnone h

/-- The command a turn of the loop executes is the one of its connection. -/
theorem serve_cmd {s : State} {c : Client} {r : Served} (h : serve s c = some r) {k : Connection}
    (hbuf : c.recvbuf = k.recvbuf) (hrecv : c.received = some k.received) :
    r.cmd = if c.hostsCtl then k.command else none := by
  have haccept : getCommand (some k.received) k.recvbuf = k.command := rfl
  rw [serve, hbuf, hrecv, haccept] at h
  cases hctl : c.hostsCtl with
  | false =>
      rw [if_pos hctl] at h
      obtain rfl := Option.some.inj h
      rfl
  | true =>
      rw [if_neg (by simp [hctl])] at h
      cases hcmd : k.command with
      | none =>
          rw [hcmd] at h
          obtain rfl := Option.some.inj h
          rfl
      | some cmd =>
          rw [hcmd] at h
          obtain ⟨x, -, rfl⟩ := Option.map_eq_some_iff.mp h
          rfl

/-- **A connection executes its own command** whatever bytes stand in the receive
buffer, and two runs that differ in these bytes the same one, if and only if its
first segment has the length of a command or begins none. A stream does so in
whatever segments it comes if and only if its first byte begins no command. -/
theorem command_eq_commandOf_iff (k : Connection) (stream : List Byte) :
    ((∀ recvbuf, (k.withBuf recvbuf).command = commandOf k.stream) ↔
      validCmdLen ≤ k.first.length ∨ ¬Begins k.first) ∧
    ((∀ recvbuf recvbuf', (k.withBuf recvbuf).command = (k.withBuf recvbuf').command) ↔
      validCmdLen ≤ k.first.length ∨ ¬Begins k.first) ∧
    ((∀ k : Connection, k.stream = stream → k.command = commandOf stream) ↔
      ¬Begins (stream.take 1)) ∧
    ((∀ k k' : Connection, k.stream = stream → k'.stream = stream → k.command = k'.command) ↔
      ¬Begins (stream.take 1)) ∧
    (stream.length < validCmdLen → commandOf stream = none) := by
  have hdecided : k.Decided → ∀ recvbuf, (k.withBuf recvbuf).command = commandOf k.stream :=
    fun hk recvbuf => (k.withBuf recvbuf).command_of_decided hk
  refine ⟨⟨fun hall => ?_, hdecided⟩, ⟨fun hall => ?_, fun hk _ _ => ?_⟩,
    ⟨fun hall hbegins => ?_, fun hnone k hk => ?_⟩,
    ⟨fun hall hbegins => ?_, fun hnone k k' hk hk' => ?_⟩, fun hshort => ?_⟩
  · by_contra hnot
    obtain ⟨recvbuf, recvbuf', hdiffer⟩ := k.exists_differ hnot
    exact hdiffer ((hall recvbuf).trans (hall recvbuf').symm)
  · by_contra hnot
    obtain ⟨recvbuf, recvbuf', hdiffer⟩ := k.exists_differ hnot
    exact hdiffer (hall recvbuf recvbuf')
  · rw [hdecided hk, hdecided hk]
  · obtain ⟨recvbuf, recvbuf', hdiffer⟩ :=
      (byteFirst stream (CharArray.zero _)).exists_differ (byteFirst_not_decided hbegins _)
    exact hdiffer ((hall _ (byteFirst_stream stream _)).trans
      (hall _ (byteFirst_stream stream _)).symm)
  · subst hk
    exact k.command_of_decided (decided_of_stream hnone)
  · obtain ⟨recvbuf, recvbuf', hdiffer⟩ :=
      (byteFirst stream (CharArray.zero _)).exists_differ (byteFirst_not_decided hbegins _)
    exact hdiffer (hall _ _ (byteFirst_stream stream _) (byteFirst_stream stream _))
  · subst hk
    rw [k.command_of_decided (decided_of_stream hnone),
      k'.command_of_decided (decided_of_stream (by rwa [hk'])), hk']
  · cases hcmd : commandOf stream with
    | none => rfl
    | some cmd => exact absurd (commandOf_eq_some hcmd).2.1 (not_le.mpr hshort)

/-- A client that closes at once turns everything off when the bytes of an
earlier `off` are still in the buffer. -/
theorem stale_off_executed :
    let k : Connection := ⟨[], staleBuffer (text "off"), fun _ h => absurd h List.not_mem_nil⟩
    k.stream = [] ∧ k.command = some (text "off" ++ [0]) ∧ commandOf k.stream = none := by
  decide +kernel

end XinuConsole.Powerd
