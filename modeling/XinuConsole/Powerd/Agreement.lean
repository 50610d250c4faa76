import XinuConsole.Powerd.Success

/-!
The power client: `src/xinu-power.c` and `send_msg` of `lib/xinu-power.c`.

`send_msg` sends the bytes of a message without its terminator. `wait_for_msg`
receives once into a buffer on its stack and compares the buffer as a string,
so it takes the terminator, and whatever the first segment left out, from the
bytes that stood there before.
-/

namespace XinuConsole.Powerd

open Lib

@[simp] def connectRetries : ℕ := 5

/-- `send_msg` and the bytes that go out; `sent` is the result of `send`. -/
def sendMsg (sent : ℤ) (msg : List Byte) : ℤ × List Byte :=
  (if sent < 0 then -1 else sent, (cstr msg).take sent.toNat)

/-- `wait_for_msg`: `received` is the result of `recv`, nothing on an error, and
`buf` the buffer before it. -/
def waitForMsg (received : Option (List Byte)) (buf : CharArray recvBufLen) (msg : List Byte) : ℤ :=
  match received with
  | none => -1
  | some bytes =>
      if bytes.length = 0 then -1
      else if cstr (buf.store bytes).val ≠ cstr msg then -1
      else 1

/-- The descriptor of the first of the calls of `socket_connect` that succeeds. -/
def connected (connects : ℕ → ℤ) : ℤ :=
  (((List.range connectRetries).map connects).find? (· ≠ -1)).getD (-1)

/-- `main` of the client after the check of its arguments' number: the status it
exits with. The status is 0 where it has printed the success string. -/
def clientMain (cmd : List Byte) (connects : ℕ → ℤ) (sent : ℤ) (received : Option (List Byte))
    (buf : CharArray recvBufLen) (closed : ℤ) : ℤ :=
  if (cstr cmd).length ≠ validCmdLen then 1
  else if validCommand cmd = false then 1
  else if connected connects = -1 then 1
  else if (sendMsg sent cmd).1 = -1 then 1
  else if waitForMsg received buf msgSuccess = -1 then 1
  else if closed = -1 then 1
  else 0

/-- The bytes that a turn of the daemon's loop sends to its client. -/
def Served.reply (r : Served) (k : Client) : List Byte :=
  match r.mesg with
  | none => []
  | some mesg => (sendMsg k.sent mesg).2

/-- A turn of the daemon's loop and the client it serves: the segments in which
the reply arrives and what the client's buffer holds before. -/
structure Exchange where
  daemon : State
  turn : Client
  served : Served
  serves : serve daemon turn = some served
  segments : List (List Byte)
  segments_ne_nil : ∀ seg ∈ segments, seg ≠ []
  arrives : segments.flatten = served.reply turn
  buf : CharArray recvBufLen

namespace Exchange

variable (x : Exchange)

def sent : List Byte := x.served.reply x.turn

def received : List Byte := recv x.segments recvBufLen

def wait : ℤ := waitForMsg (some x.received) x.buf msgSuccess

/-- The daemon executed the command and said so. -/
def Said : Prop :=
  ∃ cmd rv s ws, x.served.cmd = some cmd ∧
    executeCommand x.turn.answers x.daemon cmd = some (rv, s, ws) ∧ rv ≠ -1 ∧
      (msgSuccess.length : ℤ) ≤ x.turn.sent

/-- The first segment of the reply. -/
def first : List Byte := x.segments.headD []

/-- The same turn with other old bytes in the client's buffer. -/
def withBuf (buf : CharArray recvBufLen) : Exchange := { x with buf := buf }

/-- The daemon sent `MSG_SUCCESS` or the beginning of it. -/
def BeginsSuccess : Prop := x.sent ≠ [] ∧ x.sent <+: msgSuccess

/-- The old byte at a place of the buffer is the one of `MSG_SUCCESS` and its
terminator. -/
def Continues (i : ℕ) : Prop := x.buf.val[i]? = (msgSuccess ++ [0])[i]?

/-- What the old bytes behind the first segment have to be, by what was sent. -/
inductive Settled : Prop
  | other (hother : ¬x.BeginsSuccess)
  | whole (hwhole : x.sent = msgSuccess)
      (hold : ∀ i, x.first.length ≤ i → i ≤ msgSuccess.length → x.Continues i)
  | short (hbegins : x.BeginsSuccess) (hshort : x.sent.length < msgSuccess.length) (i : ℕ)
      (hbehind : x.first.length ≤ i) (hinside : i ≤ msgSuccess.length) (hdiffers : ¬x.Continues i)

end Exchange

/-! ### What the daemon sends -/

theorem cstr_msgSuccess : cstr msgSuccess = msgSuccess := cstr_of_not_mem (by decide)

theorem cstr_msgInvalid : cstr msgInvalid = msgInvalid := cstr_of_not_mem (by decide)

theorem length_msgSuccess : msgSuccess.length = 31 := by decide

theorem sendMsg_msgSuccess_eq_iff (sent : ℤ) :
    (sendMsg sent msgSuccess).2 = msgSuccess ↔ (msgSuccess.length : ℤ) ≤ sent := by
  rw [sendMsg, cstr_msgSuccess, List.take_eq_self_iff, length_msgSuccess]
  omega

/-- The two messages differ in the first byte. -/
theorem not_prefix_of_prefix_msgInvalid {s : List Byte} (h : s <+: msgInvalid) (hne : s ≠ []) :
    ¬s <+: msgSuccess := by
  intro hs
  cases s with
  | nil => exact hne rfl
  | cons b s =>
      have h₁ : b = msgInvalid.headD 0 := by
        obtain ⟨t, ht⟩ := h
        rw [← ht]
        rfl
      have h₂ : b = msgSuccess.headD 0 := by
        obtain ⟨t, ht⟩ := hs
        rw [← ht]
        rfl
      exact absurd (h₁.symm.trans h₂) (by decide)

namespace Exchange

variable (x : Exchange)

/-- Nothing is sent, or the beginning of the message for the command executed. -/
theorem sent_cases : (x.served.cmd = none ∧ x.sent = []) ∨ ∃ cmd rv s ws, x.served.cmd = some cmd ∧
    executeCommand x.turn.answers x.daemon cmd = some (rv, s, ws) ∧
      x.sent = (sendMsg x.turn.sent (answer rv)).2 := by
  have hserves := x.serves
  rw [serve] at hserves
  split at hserves
  · left
    rw [sent, Served.reply, ← Option.some.inj hserves]
    exact ⟨rfl, rfl⟩
  · split at hserves
    · left
      rw [sent, Served.reply, ← Option.some.inj hserves]
      exact ⟨rfl, rfl⟩
    · next cmd _ =>
        right
        obtain ⟨⟨rv, s, ws⟩, hexec, hserved⟩ := Option.map_eq_some_iff.mp hserves
        refine ⟨cmd, rv, s, ws, by rw [← hserved], hexec, ?_⟩
        rw [sent, Served.reply, ← hserved]

theorem sent_prefix : x.sent = [] ∨ x.sent <+: msgSuccess ∨ (x.sent <+: msgInvalid ∧ x.sent ≠ []) := by
  rcases x.sent_cases with ⟨-, hnone⟩ | ⟨cmd, rv, s, ws, -, -, hsent⟩
  · exact .inl hnone
  · rw [answer] at hsent
    split at hsent
    · by_cases hnone : x.sent = []
      · exact .inl hnone
      · refine .inr (.inr ⟨?_, hnone⟩)
        rw [hsent, sendMsg, cstr_msgInvalid]
        exact List.take_prefix _ _
    · refine .inr (.inl ?_)
      rw [hsent, sendMsg, cstr_msgSuccess]
      exact List.take_prefix _ _

/-- `MSG_SUCCESS` goes out whole exactly when the command was executed and the
message accepted. -/
theorem sent_eq_iff : x.sent = msgSuccess ↔ x.Said := by
  rcases x.sent_cases with ⟨hcmd, hnone⟩ | ⟨cmd, rv, s, ws, hcmd, hexec, hsent⟩
  · rw [hnone]
    constructor
    · exact fun h => absurd h (by decide)
    · rintro ⟨_, _, _, _, hsome, -⟩
      exact absurd (hcmd.symm.trans hsome) (by simp)
  · have hsaid : x.Said ↔ rv ≠ -1 ∧ (msgSuccess.length : ℤ) ≤ x.turn.sent := by
      constructor
      · rintro ⟨cmd', rv', s', ws', hcmd', hexec', hrv, hall⟩
        obtain rfl := Option.some.inj (hcmd.symm.trans hcmd')
        obtain ⟨rfl, -⟩ := Prod.mk.inj (Option.some.inj (hexec.symm.trans hexec'))
        exact ⟨hrv, hall⟩
      · exact fun h => ⟨cmd, rv, s, ws, hcmd, hexec, h⟩
    rw [hsaid, hsent, answer]
    split
    · next hrv =>
        refine iff_of_false (fun h => ?_) fun h => h.1 hrv
        have hlen := congrArg List.length h
        rw [sendMsg, cstr_msgInvalid, length_msgSuccess] at hlen
        exact absurd (hlen ▸ List.length_take_le' x.turn.sent.toNat msgInvalid) (by decide)
    · next hrv => rw [sendMsg_msgSuccess_eq_iff, and_iff_right hrv]

/-! ### What the client makes of it -/

theorem received_prefix : x.received <+: x.sent := by
  rw [received, recv, sent, ← x.arrives]
  cases x.segments with
  | nil => simp
  | cons seg segs => exact (List.take_prefix _ _).trans (List.prefix_append _ _)

theorem received_eq_nil_iff : x.received = [] ↔ x.sent = [] := by
  constructor
  · intro h
    rw [sent, ← x.arrives]
    cases hs : x.segments with
    | nil => rfl
    | cons seg segs =>
        have hne := x.segments_ne_nil seg (by simp [hs])
        rw [received, recv, hs, List.headD_cons, List.take_eq_nil_iff] at h
        exact absurd h (by simp [hne])
  · intro h
    have hpre := x.received_prefix
    rwa [h, List.prefix_nil] at hpre

theorem received_length_le : x.received.length ≤ recvBufLen := List.length_take_le _ _

/-- The message with its terminator is what the buffer begins with. -/
theorem wait_eq_one_iff : x.wait = 1 ↔ x.sent ≠ [] ∧
    msgSuccess ++ [0] <+: x.received ++ x.buf.val.drop x.received.length := by
  have hstore : (x.buf.store x.received).val = x.received ++ x.buf.val.drop x.received.length := by
    show x.received.take recvBufLen ++ _ = _
    rw [List.take_of_length_le x.received_length_le]
  have hlen : (x.buf.store x.received).val.length = recvBufLen := (x.buf.store x.received).property
  rw [← hstore, ← cstr_eq_iff_prefix (by decide) (by rw [hlen]; decide), ne_eq,
    ← received_eq_nil_iff,
    wait, waitForMsg, cstr_msgSuccess]
  split
  · next hnone => exact iff_of_false (by norm_num) fun h => h.1 (List.length_eq_zero_iff.mp hnone)
  · next hsome =>
      have hne : x.received ≠ [] := fun h => hsome (by rw [h]; rfl)
      split
      · next hdiffer => exact iff_of_false (by norm_num) fun h => hdiffer h.2
      · next heq => exact iff_of_true rfl ⟨hne, not_not.mp heq⟩

theorem received_eq_first (hbegins : x.BeginsSuccess) : x.received = x.first := by
  apply List.take_of_length_le
  have hfirst : x.first.length ≤ x.sent.length := by
    rw [sent, ← x.arrives, first]
    cases x.segments with
    | nil => exact Nat.zero_le _
    | cons seg segs => simp
  have hsent := hbegins.2.length_le
  rw [length_msgSuccess] at hsent
  exact hfirst.trans (hsent.trans (by decide))

/-- After the beginning of `MSG_SUCCESS` the old bytes decide. -/
theorem wait_iff_continues (hbegins : x.BeginsSuccess) : x.wait = 1 ↔
    ∀ i, x.first.length ≤ i → i ≤ msgSuccess.length → x.Continues i := by
  have hfirst := x.received_eq_first hbegins
  have hpre : x.first <+: msgSuccess := hfirst ▸ x.received_prefix.trans hbegins.2
  obtain ⟨t, ht⟩ := hpre
  have hlen : (msgSuccess ++ [0]).length = msgSuccess.length + 1 := List.length_append
  have hold : msgSuccess ++ [0] <+: x.first ++ x.buf.val.drop x.first.length ↔
      (msgSuccess ++ [0]).drop x.first.length <+: x.buf.val.drop x.first.length := by
    rw [← ht, List.append_assoc, List.drop_left, List.prefix_append_right_inj]
  rw [wait_eq_one_iff, and_iff_right hbegins.1, hfirst, hold, List.prefix_iff_getElem?]
  constructor
  · intro hall i hbehind hinside
    have hi := hall (i - x.first.length) (by rw [List.length_drop, hlen]; omega)
    rw [List.getElem?_drop, List.getElem_drop, ← List.getElem?_eq_getElem] at hi
    rwa [show x.first.length + (i - x.first.length) = i by omega] at hi
  · intro hall i hi
    rw [List.length_drop, hlen] at hi
    rw [List.getElem?_drop, List.getElem_drop, ← List.getElem?_eq_getElem]
    exact hall _ (Nat.le_add_right _ _) (by omega)

/-- After another message the comparison fails at the first byte. -/
theorem wait_ne_one (hpre : x.sent <+: msgInvalid) (hne : x.sent ≠ []) : x.wait ≠ 1 := by
  intro h
  have hbegin := (x.wait_eq_one_iff.mp h).2
  have hreceived : x.received ≠ [] := fun hnone => hne (x.received_eq_nil_iff.mp hnone)
  refine not_prefix_of_prefix_msgInvalid (x.received_prefix.trans hpre) hreceived ?_
  have hle : x.received.length ≤ msgSuccess.length :=
    (x.received_prefix.trans hpre).length_le.trans (by decide)
  exact List.prefix_of_prefix_length_le (List.prefix_append _ _)
    ((List.prefix_append msgSuccess [0]).trans hbegin) hle

/-- Where nothing or another message was sent the client never errs. -/
theorem agrees_of_other (hother : ¬x.BeginsSuccess) : x.wait = 1 ↔ x.sent = msgSuccess := by
  have hnot : x.sent ≠ msgSuccess := by
    intro h
    exact hother ⟨by rw [h]; decide, h ▸ List.prefix_rfl⟩
  refine iff_of_false ?_ hnot
  rcases x.sent_prefix with hnone | hpre | ⟨hpre, hne⟩
  · exact fun h => (x.wait_eq_one_iff.mp h).1 hnone
  · intro h
    exact hother ⟨(x.wait_eq_one_iff.mp h).1, hpre⟩
  · exact x.wait_ne_one hpre hne

theorem wait_agrees_iff : (x.wait = 1 ↔ x.sent = msgSuccess) ↔ x.Settled := by
  by_cases hbegins : x.BeginsSuccess
  case neg => exact iff_of_true (x.agrees_of_other hbegins) (.other hbegins)
  rw [x.wait_iff_continues hbegins]
  by_cases hwhole : x.sent = msgSuccess
  · rw [iff_true_right hwhole]
    refine ⟨.whole hwhole, fun hsettled => ?_⟩
    cases hsettled with
    | other hother => exact absurd hbegins hother
    | whole _ hold => exact hold
    | short _ hshort => exact absurd (congrArg List.length hwhole) hshort.ne
  · rw [iff_false_right hwhole]
    have hshort : x.sent.length < msgSuccess.length := by
      refine lt_of_le_of_ne hbegins.2.length_le fun hlen => hwhole ?_
      exact hbegins.2.eq_of_length hlen
    constructor
    · intro hnot
      simp only [not_forall] at hnot
      obtain ⟨i, hbehind, hinside, hdiffers⟩ := hnot
      exact .short hbegins hshort i hbehind hinside hdiffers
    · intro hsettled hall
      cases hsettled with
      | other hother => exact absurd hbegins hother
      | whole hwhole' => exact hwhole hwhole'
      | short _ _ i hbehind hinside hdiffers => exact hdiffers (hall i hbehind hinside)

theorem first_length_le (hbegins : x.BeginsSuccess) : x.first.length ≤ x.sent.length := by
  rw [← x.received_eq_first hbegins]
  exact x.received_prefix.length_le

/-- A buffer that holds `MSG_SUCCESS` makes the client report success, and one
without its terminator makes it report a failure. -/
theorem wait_of_buf (hbegins : x.BeginsSuccess) : ∃ buf buf',
    (x.withBuf buf).wait = 1 ∧ (x.withBuf buf').wait ≠ 1 := by
  let stale : CharArray recvBufLen := (CharArray.zero recvBufLen).store msgSuccess
  let ones : CharArray recvBufLen := ⟨List.replicate recvBufLen 1, List.length_replicate⟩
  refine ⟨stale, ones, ?_, fun hwait => ?_⟩
  · have hstale : (x.withBuf stale).BeginsSuccess := hbegins
    refine ((x.withBuf stale).wait_iff_continues hstale).mpr fun i _ hinside => ?_
    have hi : i < 32 := by
      rw [length_msgSuccess] at hinside
      omega
    show stale.val[i]? = (msgSuccess ++ [0])[i]?
    interval_cases i <;> rfl
  · have hones : (x.withBuf ones).BeginsSuccess := hbegins
    have hfirst := (x.first_length_le hbegins).trans hbegins.2.length_le
    have hend := ((x.withBuf ones).wait_iff_continues hones).mp hwait msgSuccess.length hfirst le_rfl
    have hdiffer : ones.val[msgSuccess.length]? ≠ (msgSuccess ++ [0])[msgSuccess.length]? := by decide
    exact hdiffer hend

theorem agrees_always_iff :
    (∀ buf, (x.withBuf buf).wait = 1 ↔ x.sent = msgSuccess) ↔ ¬x.BeginsSuccess := by
  refine ⟨fun hall hbegins => ?_, fun hother buf => agrees_of_other (x.withBuf buf) hother⟩
  obtain ⟨buf, buf', hreports, hfails⟩ := x.wait_of_buf hbegins
  exact hfails ((hall buf').mpr ((hall buf).mp hreports))

/-- No byte of the message is a zero. -/
theorem not_continues_zero (hzero : x.buf = CharArray.zero _) {i : ℕ} (hi : i < msgSuccess.length) :
    ¬x.Continues i := by
  intro hcontinues
  have hinside : i < recvBufLen := hi.trans (by decide)
  have hbuf : x.buf.val[i]? = some 0 := by
    rw [hzero]
    exact List.getElem?_replicate_of_lt hinside
  rw [Continues, hbuf, List.getElem?_append_left hi] at hcontinues
  exact absurd (List.mem_of_getElem? hcontinues.symm) (by decide)

/-- Over zeroes the whole message has to come in one segment. -/
theorem settled_zero_iff (hzero : x.buf = CharArray.zero _) :
    x.Settled ↔ (x.sent = msgSuccess → x.first = msgSuccess) := by
  constructor
  · intro hsettled hwhole
    have hbegins : x.BeginsSuccess := ⟨by rw [hwhole]; decide, hwhole ▸ List.prefix_rfl⟩
    have hpre : x.first <+: msgSuccess := by
      rw [← x.received_eq_first hbegins]
      exact x.received_prefix.trans hbegins.2
    cases hsettled with
    | other hother => exact absurd hbegins hother
    | short _ hshort => exact absurd (congrArg List.length hwhole) hshort.ne
    | whole _ hold =>
        refine hpre.eq_of_length (le_antisymm hpre.length_le (not_lt.mp fun hlt => ?_))
        exact x.not_continues_zero hzero hlt (hold _ le_rfl hlt.le)
  · intro hone
    by_cases hbegins : x.BeginsSuccess
    case neg => exact .other hbegins
    by_cases hwhole : x.sent = msgSuccess
    · refine .whole hwhole fun i hbehind hinside => ?_
      rw [hone hwhole] at hbehind
      obtain rfl := le_antisymm hinside hbehind
      rw [Continues, hzero]
      decide
    · have hshort : x.sent.length < msgSuccess.length := by
        refine lt_of_le_of_ne hbegins.2.length_le fun hlen => hwhole ?_
        exact hbegins.2.eq_of_length hlen
      exact .short hbegins hshort _ (x.first_length_le hbegins) hshort.le
        (x.not_continues_zero hzero hshort)

end Exchange

/-- Where the other calls of the client succeed, its status is that of `wait_for_msg`. -/
theorem clientMain_eq_zero_iff {cmd : List Byte} (hcmd : validCommand cmd = true) {connects : ℕ → ℤ}
    (hconnected : connected connects ≠ -1) {sent : ℤ} (hsent : 0 ≤ sent) {closed : ℤ}
    (hclosed : closed ≠ -1) (received : Option (List Byte)) (buf : CharArray recvBufLen) :
    clientMain cmd connects sent received buf closed = 0 ↔ waitForMsg received buf msgSuccess = 1 := by
  have hlen := length_of_validCommand hcmd
  have hgone : (sendMsg sent cmd).1 ≠ -1 := by
    rw [sendMsg, if_neg hsent.not_gt]
    omega
  have hresult : waitForMsg received buf msgSuccess = -1 ∨ waitForMsg received buf msgSuccess =
    1 := by
    unfold waitForMsg
    split
    · exact .inl rfl
    · split
      · exact .inl rfl
      · split
        · exact .inl rfl
        · exact .inr rfl
  rw [clientMain, if_neg (not_not.mpr hlen), if_neg (by simp [hcmd]), if_neg hconnected,
    if_neg hgone,
    if_neg hclosed]
  rcases hresult with h | h <;> simp [h]

/-- **Client and daemon agree on success** whatever stands in the client's buffer
exactly where the daemon sent nothing or another message. After `MSG_SUCCESS` or
a beginning of it they agree exactly where the old bytes behind the first segment
continue the message, if all of it was sent, or somewhere do not, if it was cut
short; over zeroes, where a whole message came in one segment. The same holds of
the client's exit status and of the command having been executed and confirmed. -/
theorem power_client_agrees_iff (x : Exchange) :
    ((∀ buf, (x.withBuf buf).wait = 1 ↔ x.sent = msgSuccess) ↔ ¬x.BeginsSuccess) ∧
      ((x.wait = 1 ↔ x.sent = msgSuccess) ↔ x.Settled) ∧
      (x.buf = CharArray.zero _ →
        ((x.wait = 1 ↔ x.sent = msgSuccess) ↔ (x.sent = msgSuccess → x.first = msgSuccess))) ∧
      ∀ cmd connects sent closed, validCommand cmd = true → connected connects ≠ -1 → 0 ≤ sent →
        closed ≠ -1 →
        ((clientMain cmd connects sent (some x.received) x.buf closed = 0 ↔ x.Said) ↔ x.Settled) := by
  refine ⟨x.agrees_always_iff, x.wait_agrees_iff, fun hzero =>
    x.wait_agrees_iff.trans (x.settled_zero_iff hzero),
    fun cmd connects sent closed hcmd hconnected hsent hclosed => ?_⟩
  rw [clientMain_eq_zero_iff hcmd hconnected hsent hclosed, ← x.sent_eq_iff]
  exact x.wait_agrees_iff

/-- A turn that turns outlet 5 on, and its reply in the given segments. -/
def upFive (segments : List (List Byte)) (h : segments.flatten = msgSuccess)
    (hne : ∀ seg ∈ segments, seg ≠ []) (buf : CharArray recvBufLen) : Exchange :=
  { daemon := startedSite.daemon
    turn := ⟨true, some (text "u05"), CharArray.zero _, sampleAnswers 6, 31⟩
    served := _
    serves := rfl
    segments := segments
    segments_ne_nil := hne
    arrives := h
    buf := buf }

theorem upFive_said {segments : List (List Byte)} (h : segments.flatten = msgSuccess)
    (hne : ∀ seg ∈ segments, seg ≠ []) (buf : CharArray recvBufLen) : (upFive segments h hne buf).Said :=
  (upFive segments h hne buf).sent_eq_iff.mp ((upFive segments h hne buf).arrives.symm.trans h)

/-- All of `MSG_SUCCESS` arrives at once and the client reports a failure, since
the byte behind it is no terminator; and so it does with a zeroed buffer when
the message comes in two segments. -/
theorem success_not_reported :
    (∃ x : Exchange, x.Said ∧ x.segments = [msgSuccess] ∧ x.wait = -1) ∧
      ∃ x : Exchange, x.Said ∧ x.buf = CharArray.zero _ ∧ x.wait = -1 := by
  constructor
  · refine ⟨upFive [msgSuccess] (by simp) (by decide) ⟨List.replicate recvBufLen 1, by simp⟩,
      upFive_said _ _ _, rfl, ?_⟩
    show waitForMsg (some _) _ msgSuccess = -1
    decide +kernel
  · refine ⟨upFive [text "Command", text " executed successfully.\n"] (by decide) (by decide)
      (CharArray.zero _), upFive_said _ _ _, rfl, ?_⟩
    show waitForMsg (some _) _ msgSuccess = -1
    decide +kernel

end XinuConsole.Powerd
