import XinuConsole.Lib.Object
import XinuConsole.Consoled.Request

/-!
The reads that `src/xinu-consoled.c` makes of a request.

`processRequestChecked` is `ProcessRequest` with the TCP wrappers compiled in,
once more, on the object that the datagram was received into: the names are
scanned, compared and copied byte by byte, and it has a result only if every
one of these loads stays within the datagram.

The comparisons and the copies are bounded by the members' lengths. Two scans
are not: the user argument of `hosts_ctl`, made before anything is known about
the request, and the one of the user log, made when the connection name was
found in the table and is thus known to end.
-/

namespace XinuConsole

open Lib

/-! Member offsets of `struct request`. -/

@[simp] def offReqUser : ℕ := 2
@[simp] def offReqConname : ℕ := offReqUser + maxUserName
@[simp] def offReqConclass : ℕ := offReqConname + maxConnectionName

/-! ### The reads of the members -/

section Members

variable (req : Request)

/-- The request as it was received. -/
def Request.object (req : Request) : Object sizeofRequest := Object.received _ req.bytes

@[simp] theorem Request.bytes_length : req.bytes.length = sizeofRequest := by
  simp [Request.bytes, req.user.property, req.conname.property, req.conclass.property]

theorem Request.take_user : (req.bytes.drop offReqUser).take 16 = req.user.val := by
  rw [Request.bytes, List.append_assoc]
  exact List.take_left' req.user.property

theorem Request.take_conname : (req.bytes.drop offReqConname).take 16 = req.conname.val := by
  have hdrop : req.bytes.drop offReqConname = req.conname.val ++ req.conclass.val := by
    rw [Request.bytes, List.append_assoc]
    exact List.drop_left' req.user.property
  rw [hdrop]
  exact List.take_left' req.conname.property

theorem Request.take_conclass : (req.bytes.drop offReqConclass).take 16 = req.conclass.val := by
  have hlen : (req.user.val ++ req.conname.val).length = 32 := by
    simp [req.user.property, req.conname.property]
  have hdrop : req.bytes.drop offReqConclass = req.conclass.val := by
    rw [Request.bytes]
    exact List.drop_left' hlen
  rw [hdrop]
  exact List.take_of_length_le (le_of_eq req.conclass.property)

theorem Request.load_version : req.object.load 0 = some req.version :=
  Object.load_received (le_of_eq req.bytes_length) 0

theorem Request.load_code : req.object.load 1 = some req.code :=
  Object.load_received (le_of_eq req.bytes_length) 1

/-- A scan of the user ends inside the request where one of its bytes from the
user on is NUL. -/
theorem Request.scan_user : req.object.scan offReqUser =
    if 0 ∈ req.bytes.drop 2 then some (cstr (req.bytes.drop 2)) else none :=
  Object.scan_received (le_of_eq req.bytes_length) _

/-- Comparisons and copies of a member's length read the member. -/
theorem Request.strnequ_member {off : ℕ} (hoff : off + 16 ≤ sizeofRequest) (s : List Byte) :
    req.object.strnequ s off 16 = some (strnequ s ((req.bytes.drop off).take 16) 16) := by
  rw [strnequ_take s _ le_rfl]
  exact Object.strnequ_received (le_of_eq req.bytes_length) s (by simpa using hoff)

theorem Request.strnequ_user (s : List Byte) : req.object.strnequ s offReqUser maxUserName =
    some (strnequ s req.user.val maxUserName) := by
  rw [← req.take_user]
  exact req.strnequ_member (by simp) s

theorem Request.strnequ_conname (s : List Byte) :
    req.object.strnequ s offReqConname maxConnectionName =
      some (strnequ s req.conname.val maxConnectionName) := by
  rw [← req.take_conname]
  exact req.strnequ_member (by simp) s

theorem Request.strnequ_conclass (s : List Byte) :
    req.object.strnequ s offReqConclass maxClassName =
      some (strnequ s req.conclass.val maxClassName) := by
  rw [← req.take_conclass]
  exact req.strnequ_member (by simp) s

theorem Request.load_member {off : ℕ} (hoff : off + 16 ≤ sizeofRequest) :
    req.object.load off = some (((req.bytes.drop off).take 16).headD 0) := by
  have hlt : off < req.bytes.length := by
    rw [Request.bytes_length]
    omega
  rw [Request.object, Object.load_received (le_of_eq req.bytes_length),
    List.getElem?_eq_getElem hlt,
    List.drop_eq_getElem_cons hlt]
  rfl

theorem Request.load_conname :
    req.object.load offReqConname = some (req.conname.val.headD 0) := by
  rw [← req.take_conname]
  exact req.load_member (by simp)

theorem Request.load_conclass :
    req.object.load offReqConclass = some (req.conclass.val.headD 0) := by
  rw [← req.take_conclass]
  exact req.load_member (by simp)

theorem Request.strncpy_user : req.object.strncpyBytes offReqUser (maxUserName - 1) =
    some (strncpyBytes req.user.val (maxUserName - 1)) := by
  rw [← req.take_user, strncpyBytes_take _ (by simp)]
  exact Object.strncpyBytes_received (le_of_eq req.bytes_length) (by simp)

end Members

namespace Consoled

open ConnectUtils

/-! ### The handler on objects -/

/-- The test in the loop of `getcondata`. -/
def conMatchesChecked (o : Object sizeofRequest) (row : Condata) : Option Bool := do
  let named ← o.strnequ row.conname offReqConname maxConnectionName
  if named = false then some false
  else do
    let c ← o.load offReqConclass
    if c = 0 then some true else o.strnequ row.conclass offReqConclass maxClassName

/-- `getcondata`, with the request's members as arguments. -/
def getcondataChecked (o : Object sizeofRequest) : List Condata → Option (Option ℕ)
  | [] => some none
  | row :: rows => do
      let found ← conMatchesChecked o row
      if found then some (some 0)
      else do
        let i ← getcondataChecked o rows
        some (i.map (· + 1))

/-- One of the two filters of `Status`. -/
def filterChecked (o : Object sizeofRequest) (off : ℕ) (s : List Byte) (k : ℕ) : Option Bool := do
  let c ← o.load off
  if c = 0 then some true else o.strnequ s off k

def statusMatchesChecked (o : Object sizeofRequest) (row : Condata) : Option Bool := do
  let named ← filterChecked o offReqConname row.conname maxConnectionName
  if named = false then some false
  else filterChecked o offReqConclass row.conclass maxClassName

/-- The loop body of `Status` behind the filters. -/
def statusRecord (now : ℤ) (s : StatusBuf) (row : Condata) : StatusBuf :=
  let s := { s with numc := s.numc + 1 }
  let s := (s.scopy row.conname).scopy row.conclass
  if row.conpid = badPid then s.emit [0]
  else
    let s := (s.emit [1]).scopy row.user.val
    s.scopy (renderTime (int32 (now - row.contime)))

def statusRowsChecked (o : Object sizeofRequest) (now : ℤ) (s : StatusBuf) :
    List Condata → Option StatusBuf
  | [] => some s
  | row :: rows => do
      let listed ← statusMatchesChecked o row
      statusRowsChecked o now (if listed = false then s else statusRecord now s row) rows

def statusChecked (o : Object sizeofRequest) (junk : Reply) (hostname : List Byte)
    (config : List Condata) (now : ℤ) : Option (Reply × ℕ) := do
  let s ← statusRowsChecked o now ⟨junk.details, 0, 0⟩ config
  some (initReply { junk with details := s.details } respOk hostname s.numc, s.buf)

/-- The comparison of a touch request. -/
def touchRowChecked (o : Object sizeofRequest) (now : ℤ) (row : Condata) : Option Condata :=
  if row.conpid = badPid then some row
  else do
    let own ← o.strnequ row.user.val offReqUser maxUserName
    some (if own then { row with contime := now } else row)

/-- The user log at the head of `MakeConnection`. -/
def userLogChecked (o : Object sizeofRequest) (d : Daemon) (row : Condata) :
    Option (List Effect) :=
  if d.logusers then do
    let user ← o.scan offReqUser
    some [.log (text "user " ++ user ++ text ": " ++ row.conprog ++ text " " ++ row.argsline)]
  else some []

def makeConnectionChecked (o : Object sizeofRequest) (pid now : ℤ) (d : Daemon) (psa : Addr) (i : ℕ)
    (row : Condata) : Option (Daemon × List Effect) := do
  let userLog ← userLogChecked o d row
  let pidLog := d.vlog (text "program pid = " ++ fmtD pid)
  if pid < 0 then some (d, userLog ++ pidLog ++ [.log (text "fork failed")])
  else do
    let user ← o.strncpyBytes offReqUser (maxUserName - 1)
    some ({ d with config := d.config.modify i (lockRow pid now user) },
      userLog ++ [.fork pid i psa] ++ pidLog)

/-- `ProcessRequest` behind the call of `hosts_ctl`. -/
def serveChecked (o : Object sizeofRequest) (junk : Reply) (pid now : ℤ) (d : Daemon)
    (psa : Addr) : Option (Daemon × List Effect) := do
  let mesg (resp : Byte) (m : String) : Effect :=
    .sendto psa (serverReplyMesg junk d.hostname.val resp (text m))
  let version ← o.load 0
  if version ≠ curVersion then some (d, [mesg respErr "unknown version"])
  else do
    let code ← o.load 1
    if code = reqVerboseOn then some ({ d with verbose := true }, [mesg respOk "verbose-mode on"])
    else if code = reqVerboseOff then
      some ({ d with verbose := false }, [mesg respOk "verbose-mode off"])
    else if code = reqStatus then do
      let sent ← statusChecked o junk d.hostname.val d.config now
      some (d, d.vlog (text "received a status request") ++
        [.sendto psa (sendtoReply sent.1 sent.2)])
    else if code = reqTouchConnection then do
      let logged := d.vlog (text "received a touch-connection request")
      match ← getcondataChecked o d.config with
      | none => some (d, logged)
      | some i =>
        match d.config[i]? with
        | none => some (d, logged)
        | some row => do
          let row' ← touchRowChecked o now row
          some ({ d with config := d.config.modify i fun _ => row' }, logged)
    else if code = reqMakeConnection then do
      let logged := d.vlog (text "received a make-connection request")
      match ← getcondataChecked o d.config with
      | none => some (d, logged ++ [mesg respErr "connection not found"])
      | some i =>
        match d.config[i]? with
        | none => some (d, logged)
        | some row =>
          if row.conpid ≠ badPid then some (d, logged ++ [mesg respErr "connection running"])
          else do
            let r ← makeConnectionChecked o pid now d psa i row
            some (r.1, logged ++ r.2)
    else if code = reqBreakConnection then do
      let logged := d.vlog (text "received a break-connection request")
      match ← getcondataChecked o d.config with
      | none => some (d, logged ++ [mesg respErr "connection not found"])
      | some i =>
        match d.config[i]? with
        | none => some (d, logged)
        | some row =>
          if row.conpid = badPid then some (d, logged ++ [mesg respErr "connection not running"])
          else some (d, logged ++ [.kill row.conpid, mesg respOk "connection broken"])
    else some (d, d.vlog (text "received an invalid request") ++ [mesg respErr "invalid command"])

/-- `ProcessRequest` with `LIBWRAP`, on the object of a request. -/
def processRequestChecked (hostsCtl : Addr → List Byte → Bool) (o : Object sizeofRequest)
    (junk : Reply) (pid now : ℤ) (d : Daemon) (psa : Addr) : Option (Daemon × List Effect) := do
  let user ← o.scan offReqUser
  if hostsCtl psa user = false then
    some (d, [.log (text "Rejecting connection from barred IP " ++ inetNtoa psa ++ text ".\n")])
  else serveChecked o junk pid now d psa

/-! ### What the checked handler does -/

section Checked

variable (req : Request)

theorem conMatchesChecked_eq (row : Condata) : conMatchesChecked req.object row =
    some (conMatches req.conname.val req.conclass.val row) := by
  rw [conMatchesChecked, req.strnequ_conname, Option.bind_eq_bind, Option.bind_some,
    req.load_conclass, Option.bind_eq_bind, Option.bind_some, req.strnequ_conclass, conMatches]
  cases strnequ row.conname req.conname.val maxConnectionName with
  | false => rfl
  | true =>
      rw [if_neg (by simp), Bool.true_and]
      split
      · next hc => rw [decide_eq_true hc, Bool.true_or]
      · next hc => rw [decide_eq_false hc, Bool.false_or]

theorem getcondataChecked_eq (rows : List Condata) : getcondataChecked req.object rows =
    some (getcondata rows req.conname.val req.conclass.val) := by
  induction rows with
  | nil => rfl
  | cons row rows ih =>
      rw [getcondataChecked, conMatchesChecked_eq, ih, Option.bind_eq_bind, Option.bind_some]
      simp only [getcondata, List.findIdx?_cons]
      split <;> rfl

theorem filterChecked_eq {off k : ℕ} {field : List Byte}
    (hload : req.object.load off = some (field.headD 0))
    (hcmp : ∀ s, req.object.strnequ s off k = some (strnequ s field k)) (s : List Byte) :
    filterChecked req.object off s k = some (field.headD 0 = 0 || strnequ field s k) := by
  rw [filterChecked, hload, Option.bind_eq_bind, Option.bind_some, hcmp, strnequ_comm]
  split
  · next hc => rw [decide_eq_true hc, Bool.true_or]
  · next hc => rw [decide_eq_false hc, Bool.false_or]

theorem statusMatchesChecked_eq (row : Condata) :
    statusMatchesChecked req.object row = some (statusMatches req row) := by
  rw [statusMatchesChecked, filterChecked_eq req req.load_conname req.strnequ_conname,
    filterChecked_eq req req.load_conclass req.strnequ_conclass, statusMatches,
    Option.bind_eq_bind, Option.bind_some]
  split
  · next hnot => rw [hnot, Bool.false_and]
  · next hyes => rw [(Bool.not_eq_false _).mp hyes, Bool.true_and]

theorem statusRowsChecked_eq (now : ℤ) (s : StatusBuf) (rows : List Condata) :
    statusRowsChecked req.object now s rows = some (rows.foldl (statusRow req now) s) := by
  induction rows generalizing s with
  | nil => rfl
  | cons row rows ih =>
      rw [statusRowsChecked, statusMatchesChecked_eq, Option.bind_eq_bind, Option.bind_some, ih]
      rfl

theorem statusChecked_eq (junk : Reply) (hostname : List Byte) (config : List Condata) (now : ℤ) :
    statusChecked req.object junk hostname config now =
      some (status junk hostname config req now) := by
  rw [statusChecked, statusRowsChecked_eq]
  rfl

theorem touchRowChecked_eq (now : ℤ) (row : Condata) :
    touchRowChecked req.object now row = some (touchRow now req.user.val row) := by
  rw [touchRowChecked, touchRow, req.strnequ_user]
  split
  · next hfree => rw [if_neg fun h => h.1 hfree]
  · next hheld => simp [hheld]

/-- A request whose connection name was found holds a NUL. -/
theorem zero_mem_of_conMatches {row : Condata}
    (h : conMatches req.conname.val req.conclass.val row = true) : 0 ∈ req.bytes.drop 2 := by
  have hname := ((conMatches_iff _ _ _).mp h).1
  have hlt := row.conname_str.2
  rw [hname, List.length_take] at hlt
  have hmem : 0 ∈ req.conname.val := by
    by_contra hnot
    rw [cstr_of_not_mem hnot, req.conname.property] at hlt
    simp at hlt
  show 0 ∈ req.user.val ++ req.conname.val ++ req.conclass.val
  exact List.mem_append_left _ (List.mem_append_right _ hmem)

theorem makeConnectionChecked_eq (hnul : 0 ∈ req.bytes.drop 2) (pid now : ℤ) (d : Daemon)
    (psa : Addr) (i : ℕ) (row : Condata) : makeConnectionChecked req.object pid now d psa i row =
      some (makeConnection pid now d psa req i row) := by
  have hlock (row : Condata) :
      lockRow pid now (strncpyBytes req.user.val (maxUserName - 1)) row =
        lockRow pid now req.user.val row := by
    simp only [lockRow, CharArray.strncpy, strncpyBytes_strncpyBytes]
  have hlog : userLogChecked req.object d row = some (if d.logusers then
      [.log (text "user " ++ Request.userString req ++ text ": " ++ row.conprog ++ text " " ++
        row.argsline)]
    else []) := by
    rw [userLogChecked, req.scan_user, if_pos hnul]
    split <;> rfl
  rw [makeConnectionChecked, hlog, Option.bind_eq_bind, Option.bind_some, req.strncpy_user,
    makeConnection]
  dsimp only
  split
  · rfl
  · rw [Option.bind_eq_bind, Option.bind_some, funext hlock]

/-- From the version check on no read leaves the request, whatever its bytes. -/
theorem serveChecked_eq (junk : Reply) (pid now : ℤ) (d : Daemon) (psa : Addr) :
    serveChecked req.object junk pid now d psa =
      some (processRequest (fun _ _ => true) junk pid now d psa req) := by
  rw [serveChecked, processRequest, req.load_version, Option.bind_eq_bind, Option.bind_some,
    req.load_code, Option.bind_eq_bind, Option.bind_some, statusChecked_eq, getcondataChecked_eq,
    if_neg (show ¬(true = false) by simp)]
  dsimp only
  split
  · rfl
  split
  · rfl
  split
  · rfl
  split
  · rfl
  split
  · cases hget : getcondata d.config req.conname.val req.conclass.val with
    | none => rfl
    | some i =>
        obtain ⟨row, hrow, -⟩ := getcondata_some hget
        have hmodify : d.config.modify i (fun _ => touchRow now req.user.val row) =
            d.config.modify i (touchRow now req.user.val) :=
          modify_congr fun row' hrow' => by rw [Option.some.inj (hrow.symm.trans hrow')]
        simp only [hrow, Option.bind_eq_bind, Option.bind_some]
        rw [touchRowChecked_eq, Option.bind_some, hmodify]
  split
  · cases hget : getcondata d.config req.conname.val req.conclass.val with
    | none => rfl
    | some i =>
        obtain ⟨row, hrow, hmatch⟩ := getcondata_some hget
        have hnul := zero_mem_of_conMatches req hmatch
        simp only [hrow, Option.bind_eq_bind, Option.bind_some]
        rw [makeConnectionChecked_eq req hnul]
        split <;> rfl
  split
  · cases hget : getcondata d.config req.conname.val req.conclass.val with
    | none => rfl
    | some i =>
        obtain ⟨row, hrow, -⟩ := getcondata_some hget
        simp only [hrow, Option.bind_eq_bind, Option.bind_some]
        split <;> rfl
  · rfl

/-- The handler as a whole: only the user argument of `hosts_ctl` can be read
past the end. -/
theorem processRequestChecked_object (hostsCtl : Addr → List Byte → Bool) (junk : Reply)
    (pid now : ℤ) (d : Daemon) (psa : Addr) :
    processRequestChecked hostsCtl req.object junk pid now d psa =
      if 0 ∈ req.bytes.drop 2 then some (processRequest hostsCtl junk pid now d psa req)
      else none := by
  have hserve : (if hostsCtl psa (Request.userString req) = false then
      some (d, [.log (text "Rejecting connection from barred IP " ++ inetNtoa psa ++ text ".\n")])
    else serveChecked req.object junk pid now d psa) =
      some (processRequest hostsCtl junk pid now d psa req) := by
    rw [serveChecked_eq, processRequest, processRequest]
    by_cases hctl : hostsCtl psa (Request.userString req) = false
    · rw [if_pos hctl]
      exact congrArg some (if_pos hctl).symm
    · rw [if_neg hctl]
      exact congrArg some ((if_neg (by simp)).trans (if_neg hctl).symm)
  rw [processRequestChecked, req.scan_user]
  split
  · exact hserve
  · rfl

end Checked

/-- A datagram of the size of a request is the one it is received as. -/
theorem recvfromRequest_sizeof {dgram : List Byte} (h : dgram.length = sizeofRequest) :
    ∃ req, recvfromRequest dgram = some req ∧ req.bytes = dgram := by
  match dgram, h with
  | version :: code :: rest, h =>
      have hrest : rest.length = 48 := by simpa using h
      let req : Request :=
        { version := version
          code := code
          user := ⟨rest.take 16, by rw [List.length_take, hrest]; rfl⟩
          conname := ⟨(rest.drop 16).take 16, by rw [List.length_take, List.length_drop, hrest]; rfl⟩
          conclass := ⟨rest.drop 32, by rw [List.length_drop, hrest]; rfl⟩ }
      have hbytes : req.bytes = version :: code :: rest := by
        show version :: code :: (rest.take 16 ++ (rest.drop 16).take 16 ++ rest.drop 32) = _
        rw [List.append_assoc, ← List.drop_drop (i := 16) (j := 16), List.take_append_drop,
          List.take_append_drop]
      exact ⟨req, hbytes ▸ recvfromRequest_bytes req, hbytes⟩

/-- The checked handler has a result where the datagram holds a NUL from the user
on, and it is the one of `ProcessRequest`. -/
theorem processRequestChecked_received (hostsCtl : Addr → List Byte → Bool) (junk : Reply)
    (pid now : ℤ) (d : Daemon) (psa : Addr) {dgram : List Byte} (h : dgram.length = sizeofRequest) :
    ∃ req, recvfromRequest dgram = some req ∧
      processRequestChecked hostsCtl (Object.received sizeofRequest dgram) junk pid now d psa =
        if 0 ∈ dgram.drop 2 then some (processRequest hostsCtl junk pid now d psa req)
        else none := by
  obtain ⟨req, hreq, rfl⟩ := recvfromRequest_sizeof h
  exact ⟨req, hreq, processRequestChecked_object req hostsCtl junk pid now d psa⟩

/-- **The reads of a request.** On a datagram of a request's size, every scan,
comparison and copy of its names stays within the datagram exactly when a byte
of the names is NUL. -/
theorem request_reads_iff (hostsCtl : Addr → List Byte → Bool) (junk : Reply) (pid now : ℤ)
    (d : Daemon) (psa : Addr) {dgram : List Byte} (h : dgram.length = sizeofRequest) :
    (processRequestChecked hostsCtl (Object.received sizeofRequest dgram) junk pid now d
      psa).isSome ↔ 0 ∈ dgram.drop 2 := by
  obtain ⟨req, -, heq⟩ := processRequestChecked_received hostsCtl junk pid now d psa h
  rw [heq]
  split
  · next hnul => simp [hnul]
  · next hnul => simp [hnul]

/-- A datagram that is a NUL after 49 other bytes is read within its bounds. -/
theorem request_reads_last : (processRequestChecked (fun _ _ => true)
    (Object.received sizeofRequest (List.replicate 49 67 ++ [0]))
    ⟨0, 0, CharArray.zero _, CharArray.zero _, fun _ => 0⟩ 7 0
    ⟨false, true, CharArray.zero _, [argo]⟩ ⟨(127, 0, 0, 1), 4096⟩).isSome :=
  (request_reads_iff _ _ _ _ _ _ (by simp)).mpr (by simp)

/-- Without a NUL the user argument of `hosts_ctl` runs past the end. -/
theorem request_reads_past_end : processRequestChecked (fun _ _ => true)
    (Object.received sizeofRequest (List.replicate 50 67))
    ⟨0, 0, CharArray.zero _, CharArray.zero _, fun _ => 0⟩ 7 0
    ⟨false, true, CharArray.zero _, [argo]⟩ ⟨(127, 0, 0, 1), 4096⟩ = none := by
  have hlen : (List.replicate 50 (67 : Byte)).length = sizeofRequest := by simp
  obtain ⟨req, -, heq⟩ := processRequestChecked_received (fun _ _ => true)
    ⟨0, 0, CharArray.zero _, CharArray.zero _, fun _ => 0⟩ 7 0
    ⟨false, true, CharArray.zero _, [argo]⟩ ⟨(127, 0, 0, 1), 4096⟩ hlen
  rw [heq, if_neg (by simp)]

end Consoled

end XinuConsole
