import XinuConsole.Decoder

/-!
The status reply of `src/xinu-consoled.c`: `Status`, `scopy`, `ServerReplyMesg`
and `sendtoReply`.

The daemon fills a reply that lies uninitialised on its stack; its content is
the argument `junk`. `status_bytes` says what is on the wire afterwards: the
header and, for every matching row in table order, the row's record.
-/

namespace XinuConsole.Consoled

open Lib ConnectUtils

/-- A C `int` holding the result of an operation whose exact value is `n`. -/
def int32 (n : ℤ) : ℤ := Int.bmod n (2 ^ 32)

theorem int32_of_range {n : ℤ} (h₁ : -2 ^ 31 ≤ n) (h₂ : n < 2 ^ 31) : int32 n = n :=
  Int.bmod_eq_of_le (by norm_num; omega) (by norm_num; omega)

/-- The text `Status` prints for an elapsed time; `/` and `%` round to zero. -/
def renderTime (sec : ℤ) : List Byte :=
  let hours := sec.tdiv (60 * 60)
  let sec := sec.tmod (60 * 60)
  let min := sec.tdiv 60
  let sec := sec.tmod 60
  fmt02D hours ++ [58] ++ fmt02D min ++ [58] ++ fmt02D sec

/-- The reply under construction: its `details`, the pointer `buf` into them
and the count `numc`. -/
structure StatusBuf where
  details : Mem
  buf : ℕ
  numc : ℕ

/-- Store bytes at `buf` and move it behind them. -/
def StatusBuf.emit (s : StatusBuf) (bs : List Byte) : StatusBuf :=
  { s with details := s.details.write s.buf bs, buf := s.buf + bs.length }

/-- `buf += scopy( str, buf )`. -/
def StatusBuf.scopy (s : StatusBuf) (str : List Byte) : StatusBuf := s.emit (cstr str ++ [0])

/-- The two filters at the head of the loop of `Status`. -/
def statusMatches (req : Request) (row : Condata) : Bool :=
  (req.conname.val.headD 0 = 0 || strnequ req.conname.val row.conname maxConnectionName) &&
    (req.conclass.val.headD 0 = 0 || strnequ req.conclass.val row.conclass maxClassName)

/-- One round of the loop of `Status`. -/
def statusRow (req : Request) (now : ℤ) (s : StatusBuf) (row : Condata) : StatusBuf :=
  if statusMatches req row = false then s
  else
    let s := { s with numc := s.numc + 1 }
    let s := (s.scopy row.conname).scopy row.conclass
    if row.conpid = badPid then s.emit [0]
    else
      let s := (s.emit [1]).scopy row.user.val
      s.scopy (renderTime (int32 (now - row.contime)))

/-- `Status`: the reply and the length handed to `sendtoReply`. -/
def status (junk : Reply) (hostname : List Byte) (config : List Condata) (req : Request)
    (now : ℤ) : Reply × ℕ :=
  let s := config.foldl (statusRow req now) ⟨junk.details, 0, 0⟩
  (initReply { junk with details := s.details } respOk hostname s.numc, s.buf)

/-- `sendtoReply`: the datagram made of a reply with `len` bytes of details. -/
def sendtoReply (reply : Reply) (len : ℕ) : List Byte := reply.header ++ reply.details.read 0 len

/-- `ServerReplyMesg`: the reply that carries a message. -/
def serverReplyMesg (junk : Reply) (hostname : List Byte) (resp : Byte) (mesg : List Byte) :
    List Byte :=
  let reply := initReply junk resp hostname 0
  let reply := { reply with details := reply.details.write 0 (cstr mesg ++ [0]) }
  sendtoReply reply ((cstr mesg).length + 1)

/-! ### Specification -/

/-- What a status reply says about a row. -/
def rowRecord (now : ℤ) (row : Condata) : StatusreplyData :=
  { conname := row.conname
    conclass := row.conclass
    active := if row.conpid = badPid then 0 else 1
    user := if row.conpid = badPid then [] else row.userName
    contime := if row.conpid = badPid then [] else renderTime (int32 (now - row.contime)) }

/-- The rows a request asks about, in table order. -/
def matching (config : List Condata) (req : Request) : List Condata :=
  config.filter (statusMatches req)

theorem StatusBuf.emit_emit (s : StatusBuf) (as bs : List Byte) :
    (s.emit as).emit bs = s.emit (as ++ bs) := by
  simp [StatusBuf.emit, Mem.write_append, Nat.add_assoc]

theorem zero_not_mem_fmt02D (n : ℤ) : (0 : Byte) ∉ fmt02D n := by
  unfold fmt02D
  have := zero_not_mem_decimal n.natAbs
  split
  · simpa using this
  · split
    · simpa using this
    · exact this

theorem zero_not_mem_renderTime (sec : ℤ) : (0 : Byte) ∉ renderTime sec := by
  simp [renderTime, zero_not_mem_fmt02D]

theorem renderTime_natCast (e : ℕ) :
    renderTime e = fmt02D ((e / 3600 : ℕ) : ℤ) ++ [58] ++ fmt02D ((e % 3600 / 60 : ℕ) : ℤ) ++
      [58] ++ fmt02D ((e % 3600 % 60 : ℕ) : ℤ) := by
  rfl

/-- Up to 99999:59:59 the text fits the time member of a record. -/
theorem renderTime_length_lt {e : ℕ} (he : e ≤ 359999999) :
    (renderTime e).length < maxTimeLength := by
  have h₁ := fmt02D_length_le (n := e / 3600) (k := 5) (by norm_num) (by omega)
  have h₂ := fmt02D_length_le (n := e % 3600 / 60) (k := 2) (by norm_num) (by omega)
  have h₃ := fmt02D_length_le (n := e % 3600 % 60) (k := 2) (by norm_num) (by omega)
  rw [renderTime_natCast]
  simp only [List.length_append, List.length_singleton, maxTimeLength]
  omega

/-- A matching row adds its record and nothing else. -/
theorem statusRow_eq (req : Request) (now : ℤ) (s : StatusBuf) (row : Condata) :
    statusRow req now s row =
      if statusMatches req row = true then
        { s.emit (encodeRecord (rowRecord now row)) with numc := s.numc + 1 }
      else s := by
  have hn : cstr row.conname = row.conname := cstr_of_not_mem row.conname_str.1
  have hc : cstr row.conclass = row.conclass := cstr_of_not_mem row.conclass_str.1
  have ht := fun sec => cstr_of_not_mem (zero_not_mem_renderTime sec)
  unfold statusRow
  by_cases hm : statusMatches req row = true
  · rw [if_neg (by simp [hm]), if_pos hm]
    by_cases hp : row.conpid = badPid
    · simp only [hp, if_true, StatusBuf.scopy, StatusBuf.emit_emit, hn, hc]
      simp [encodeRecord, rowRecord, hp, StatusBuf.emit]
    · simp only [hp, if_false, StatusBuf.scopy, StatusBuf.emit_emit, hn, hc, ht]
      simp [encodeRecord, rowRecord, hp, StatusBuf.emit, Condata.userName]
  · rw [if_pos (by simpa using hm), if_neg hm]

theorem foldl_statusRow (req : Request) (now : ℤ) (config : List Condata) (s : StatusBuf) :
    config.foldl (statusRow req now) s =
      { s.emit ((matching config req).flatMap (encodeRecord ∘ rowRecord now)) with
        numc := s.numc + (matching config req).length } := by
  induction config generalizing s with
  | nil => simp [matching, StatusBuf.emit, Mem.write]
  | cons row config ih =>
      rw [List.foldl_cons, ih, statusRow_eq]
      by_cases hm : statusMatches req row = true
      · rw [if_pos hm]
        simp [matching, hm, StatusBuf.emit, Mem.write_append]
        omega
      · rw [if_neg hm]
        simp [matching, hm]

/-- The datagram `Status` sends: the header and the matching rows' records. -/
theorem status_bytes (junk : Reply) (hostname : List Byte) (config : List Condata)
    (req : Request) (now : ℤ) :
    sendtoReply (status junk hostname config req now).1 (status junk hostname config req now).2 =
      (initReply junk respOk hostname (matching config req).length).header ++
        ((matching config req).map (rowRecord now)).flatMap encodeRecord := by
  have hfold := foldl_statusRow req now config ⟨junk.details, 0, 0⟩
  have hmap : ((matching config req).map (rowRecord now)).flatMap encodeRecord =
      (matching config req).flatMap (encodeRecord ∘ rowRecord now) := List.flatMap_map ..
  simp only [status, sendtoReply, hfold, StatusBuf.emit, Nat.zero_add, hmap]
  congr 1
  exact Mem.read_write_same _ _ _

theorem serverReplyMesg_eq (junk : Reply) (hostname : List Byte) (resp : Byte) (mesg : List Byte) :
    serverReplyMesg junk hostname resp mesg =
      (initReply junk resp hostname 0).header ++ (cstr mesg ++ [0]) := by
  simp only [serverReplyMesg, sendtoReply]
  congr 1
  have := Mem.has_write (initReply junk resp hostname 0).details 0 (cstr mesg ++ [0])
  rw [Mem.Has, List.length_append, List.length_singleton] at this
  exact this

/-- The message can be read off the datagram. -/
theorem cstr_serverReplyMesg (junk : Reply) (hostname : List Byte) (resp : Byte)
    (mesg : List Byte) :
    cstr ((serverReplyMesg junk hostname resp mesg).drop 70) = cstr mesg := by
  rw [serverReplyMesg_eq, List.drop_append, Reply.header_length,
    List.drop_of_length_le (Reply.header_length _).le, List.nil_append, Nat.sub_self,
    List.drop_zero]
  exact cstr_append_zero (zero_not_mem_cstr mesg) []

end XinuConsole.Consoled
