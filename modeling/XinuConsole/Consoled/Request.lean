import XinuConsole.Consoled.Status
import XinuConsole.Support

/-!
The request handling of `src/xinu-consoled.c`: `ProcessRequest`,
`MakeConnection`, one round of `findDeadChildren` and `recvfromRequest`.

The handler returns the daemon's new state and the effects it had, in order.
What the operating system answers (the result of `fork`, the clock) and what
the stack holds is passed in. `hostsCtl` is the test of the TCP wrappers on
the source address and the user; it is constantly true where they are not
compiled in.
-/

namespace XinuConsole.Consoled

open Lib ConnectUtils

/-- `struct sockaddr_in`. -/
structure Addr where
  ip : Byte × Byte × Byte × Byte
  port : ℕ
  deriving DecidableEq

def inetNtoa (addr : Addr) : List Byte :=
  let (a, b, c, d) := addr.ip
  decimal a.toNat ++ [46] ++ decimal b.toNat ++ [46] ++ decimal c.toNat ++ [46] ++ decimal d.toNat

/-- The static variables of the daemon. -/
structure Daemon where
  verbose : Bool
  logusers : Bool
  hostname : CharArray maxHostName
  config : List Condata

inductive Effect
  | log (line : List Byte)
  | sendto (dst : Addr) (dgram : List Byte)
  | fork (pid : ℤ) (row : ℕ) (peer : Addr)
  | kill (pid : ℤ)
  deriving DecidableEq

/-- `MakeConnection` in the parent: the row is taken by the child `pid`. -/
def lockRow (pid now : ℤ) (user : List Byte) (row : Condata) : Condata :=
  { row with
    conpid := pid
    contime := now
    user := row.user.strncpy user (maxUserName - 1)
    user_end := by
      have := row.user_end
      simp only [CharArray.strncpy]
      rw [List.getElem?_append_right (by simp)]
      simpa using this }

/-- The body of a touch request: the owner's time is set. -/
def touchRow (now : ℤ) (user : List Byte) (row : Condata) : Condata :=
  if row.conpid ≠ badPid ∧ strnequ row.user.val user maxUserName then { row with contime := now }
  else row

theorem touchRow_conpid (now : ℤ) (user : List Byte) (row : Condata) :
    (touchRow now user row).conpid = row.conpid := by
  unfold touchRow
  split <;> rfl

/-- The body of the inner loop of `findDeadChildren`. -/
def freeRow (childpid : ℤ) (row : Condata) : Condata :=
  if row.conpid = childpid then
    { row with
      user := row.user.set 0 0
      contime := 0
      conpid := badPid
      user_end := by
        have := row.user_end
        simp only [CharArray.set]
        rw [List.getElem?_set_ne (by decide)]
        exact this }
  else row

/-- One round of the outer loop of `findDeadChildren`. -/
def collectChild (d : Daemon) (childpid : ℤ) : Daemon :=
  { d with config := d.config.map (freeRow childpid) }

def Daemon.vlog (d : Daemon) (line : List Byte) : List Effect := if d.verbose then [.log line] else []

/-- `req->user` as a string: without a terminator it runs on into the next
member. -/
def Request.userString (req : Request) : List Byte := cstr (req.bytes.drop 2)

/-- `MakeConnection`, after `fork` returned `pid` in the daemon. -/
def makeConnection (pid now : ℤ) (d : Daemon) (psa : Addr) (req : Request) (i : ℕ)
    (row : Condata) : Daemon × List Effect :=
  let userLog := if d.logusers then
      [.log (text "user " ++ Request.userString req ++ text ": " ++ row.conprog ++ text " " ++
        row.argsline)]
    else []
  let pidLog := d.vlog (text "program pid = " ++ fmtD pid)
  if pid < 0 then (d, userLog ++ pidLog ++ [.log (text "fork failed")])
  else
    ({ d with config := d.config.modify i (lockRow pid now req.user.val) },
      userLog ++ [.fork pid i psa] ++ pidLog)

/-- `ProcessRequest`. -/
def processRequest (hostsCtl : Addr → List Byte → Bool) (junk : Reply) (pid now : ℤ) (d : Daemon)
    (psa : Addr) (req : Request) : Daemon × List Effect :=
  let mesg (resp : Byte) (m : String) : Effect :=
    .sendto psa (serverReplyMesg junk d.hostname.val resp (text m))
  if hostsCtl psa (Request.userString req) = false then
    (d, [.log (text "Rejecting connection from barred IP " ++ inetNtoa psa ++ text ".\n")])
  else if req.version ≠ curVersion then (d, [mesg respErr "unknown version"])
  else if req.code = reqVerboseOn then ({ d with verbose := true }, [mesg respOk "verbose-mode on"])
  else if req.code = reqVerboseOff then
    ({ d with verbose := false }, [mesg respOk "verbose-mode off"])
  else if req.code = reqStatus then
    let sent := status junk d.hostname.val d.config req now
    (d, d.vlog (text "received a status request") ++ [.sendto psa (sendtoReply sent.1 sent.2)])
  else if req.code = reqTouchConnection then
    let logged := d.vlog (text "received a touch-connection request")
    match getcondata d.config req.conname.val req.conclass.val with
    | none => (d, logged)
    | some i => ({ d with config := d.config.modify i (touchRow now req.user.val) }, logged)
  else if req.code = reqMakeConnection then
    let logged := d.vlog (text "received a make-connection request")
    match getcondata d.config req.conname.val req.conclass.val with
    | none => (d, logged ++ [mesg respErr "connection not found"])
    | some i =>
      match d.config[i]? with
      | none => (d, logged)
      | some row =>
        if row.conpid ≠ badPid then (d, logged ++ [mesg respErr "connection running"])
        else
          let r := makeConnection pid now d psa req i row
          (r.1, logged ++ r.2)
  else if req.code = reqBreakConnection then
    let logged := d.vlog (text "received a break-connection request")
    match getcondata d.config req.conname.val req.conclass.val with
    | none => (d, logged ++ [mesg respErr "connection not found"])
    | some i =>
      match d.config[i]? with
      | none => (d, logged)
      | some row =>
        -- neither the user of the row nor its time is looked at
        if row.conpid = badPid then (d, logged ++ [mesg respErr "connection not running"])
        else (d, logged ++ [.kill row.conpid, mesg respOk "connection broken"])
  else (d, d.vlog (text "received an invalid request") ++ [mesg respErr "invalid command"])

/-- `recvfromRequest` on a datagram: what is longer than a request is cut, what
is shorter is refused. -/
def recvfromRequest (d : List Byte) : Option Request :=
  let got := d.take sizeofRequest
  if h : got.length = sizeofRequest then
    some
      { version := got.getD 0 0
        code := got.getD 1 0
        user := ⟨(got.drop 2).take maxUserName, by rw [List.length_take, List.length_drop, h]; rfl⟩
        conname := ⟨(got.drop (2 + maxUserName)).take maxConnectionName, by
          rw [List.length_take, List.length_drop, h]; rfl⟩
        conclass := ⟨(got.drop (2 + maxUserName + maxConnectionName)).take maxClassName, by
          rw [List.length_take, List.length_drop, h]; rfl⟩ }
  else none

/-- The daemon reads the request a client sent. -/
theorem recvfromRequest_bytes (req : Request) : recvfromRequest req.bytes = some req := by
  obtain ⟨version, code, ⟨user, hu⟩, ⟨conname, hn⟩, ⟨conclass, hc⟩⟩ := req
  simp only [maxUserName, maxConnectionName, maxClassName] at hu hn hc
  have htake : (Request.bytes ⟨version, code, ⟨user, hu⟩, ⟨conname, hn⟩, ⟨conclass, hc⟩⟩).take
      sizeofRequest = version :: code :: (user ++ conname ++ conclass) :=
    List.take_of_length_le (by simp [Request.bytes, hu, hn, hc])
  unfold recvfromRequest
  simp only [htake]
  rw [dif_pos (by simp [hu, hn, hc])]
  simp [hu, hn, hc, List.drop_append, List.drop_of_length_le, List.take_of_length_le]

/-! ### What a request can do -/

/-- The request passes the checks made before its code is looked at. -/
def Admitted (hostsCtl : Addr → List Byte → Bool) (psa : Addr) (req : Request) : Prop :=
  hostsCtl psa (Request.userString req) = true ∧ req.version = curVersion

/-- The lookup of a request's names leads to `row`, the row number `i`. -/
def Addresses (d : Daemon) (req : Request) (i : ℕ) (row : Condata) : Prop :=
  getcondata d.config req.conname.val req.conclass.val = some i ∧ d.config[i]? = some row

/-- A request matches a row by the first fifteen characters of its names. -/
theorem conMatches_initRequest (stack : Request) (user : List Byte) (code : Byte)
    (connection cls : Option (List Byte)) (row : Condata) :
    let req := initRequest stack user code connection cls
    conMatches req.conname.val req.conclass.val row = true ↔
      row.conname = (cstr (connection.getD [])).take 15 ∧
        ((cstr (cls.getD [])).take 15 = [] ∨ row.conclass = (cstr (cls.getD [])).take 15) := by
  intro req
  rw [conMatches_iff, headD_eq_zero_iff, cstr_initRequest_conname, cstr_initRequest_conclass,
    List.take_take, List.take_take]
  rfl

/-- The child and the row of a `fork`. -/
def Effect.forked : Effect → Option (ℤ × ℕ)
  | .fork pid row _ => some (pid, row)
  | _ => none

/-- The three ways a request is served: the table stays as it is, with a kill
only for a break of a held row; the owner's time is set; a free row is given
to a new child. -/
inductive Served (hostsCtl : Addr → List Byte → Bool) (pid now : ℤ) (d : Daemon) (psa : Addr)
    (req : Request) (r : Daemon × List Effect) : Prop
  | same (hconfig : r.1.config = d.config) (hfork : r.2.filterMap Effect.forked = [])
      (hkill : ∀ p, Effect.kill p ∈ r.2 → Admitted hostsCtl psa req ∧
        req.code = reqBreakConnection ∧
        ∃ i row, Addresses d req i row ∧ row.conpid ≠ badPid ∧ p = row.conpid)
  | touched (i : ℕ) (row : Condata) (hadm : Admitted hostsCtl psa req)
      (hcode : req.code = reqTouchConnection) (haddr : Addresses d req i row)
      (hheld : row.conpid ≠ badPid) (huser : strnequ row.user.val req.user.val maxUserName)
      (hconfig : r.1.config = d.config.modify i (touchRow now req.user.val))
      (hfork : r.2.filterMap Effect.forked = []) (hkill : ∀ p, Effect.kill p ∉ r.2)
  | made (i : ℕ) (row : Condata) (hadm : Admitted hostsCtl psa req)
      (hcode : req.code = reqMakeConnection) (haddr : Addresses d req i row)
      (hfree : row.conpid = badPid) (hpid : 0 ≤ pid)
      (hconfig : r.1.config = d.config.modify i (lockRow pid now req.user.val))
      (hfork : r.2.filterMap Effect.forked = [(pid, i)]) (hkill : ∀ p, Effect.kill p ∉ r.2)

theorem modify_congr {l : List Condata} {i : ℕ} {f g : Condata → Condata}
    (h : ∀ row, l[i]? = some row → f row = g row) : l.modify i f = l.modify i g := by
  apply List.ext_getElem?
  intro j
  rw [List.getElem?_modify, List.getElem?_modify]
  split
  · next hij =>
      subst hij
      cases hrow : l[i]? with
      | none => rfl
      | some row => simp [h row hrow]
  · rfl

theorem modify_eq_self {l : List Condata} {i : ℕ} {f : Condata → Condata}
    (h : ∀ row, l[i]? = some row → f row = row) : l.modify i f = l := by
  exact (modify_congr (g := id) h).trans (List.modify_id i l)

/-- A change of one row that a view does not show does not show in the table. -/
theorem map_modify {α : Type} {g : Condata → α} {f : Condata → Condata}
    (h : ∀ row, g (f row) = g row) (l : List Condata) (i : ℕ) : (l.modify i f).map g = l.map g := by
  induction l generalizing i with
  | nil => cases i <;> rfl
  | cons row l ih => cases i <;> simp [h, ih]

/-! ### The branches of ProcessRequest -/

/-- Only the log is written. -/
def Logs (fx : List Effect) : Prop := ∀ e ∈ fx, ∃ line, e = .log line

theorem logs_vlog (d : Daemon) (line : List Byte) : Logs (d.vlog line) := by
  rw [Daemon.vlog]
  split <;> simp [Logs]

theorem Logs.append {fx fx' : List Effect} (h : Logs fx) (h' : Logs fx') : Logs (fx ++ fx') :=
  List.forall_mem_append.mpr ⟨h, h'⟩

theorem Logs.not_mem {fx : List Effect} (h : Logs fx) {e : Effect} (he : ∀ line, e ≠ .log line) :
    e ∉ fx := by
  intro hmem
  obtain ⟨line, rfl⟩ := h e hmem
  exact he line rfl

theorem Logs.filterMap {α : Type} {f : Effect → Option α} {fx : List Effect} (h : Logs fx)
    (hf : ∀ line, f (.log line) = none) : fx.filterMap f = [] := by
  apply List.filterMap_eq_nil_iff.mpr
  intro e he
  obtain ⟨line, rfl⟩ := h e he
  exact hf line

theorem filterMap_forked_vlog (d : Daemon) (line : List Byte) :
    (d.vlog line).filterMap Effect.forked = [] := (logs_vlog d line).filterMap fun _ => rfl

theorem kill_not_mem_vlog (d : Daemon) (line : List Byte) (p : ℤ) :
    Effect.kill p ∉ d.vlog line := (logs_vlog d line).not_mem (by simp)

section processed

variable (hostsCtl : Addr → List Byte → Bool) (junk : Reply) (pid now : ℤ) (d : Daemon) (psa : Addr)
  (req : Request)

/-- What a call of `processRequest` comes to. -/
inductive Processed : Daemon × List Effect → Prop
  | silent (logs : List Effect) (hlogs : Logs logs) : Processed (d, logs)
  | told (d' : Daemon) (logs : List Effect) (resp : Byte) (m : List Byte) (hlogs : Logs logs)
      (hconfig : d'.config = d.config) (hm : (0 : Byte) ∉ m) (hlen : m.length + 1 < maxDetails)
      (hmake : req.code = reqMakeConnection → resp = respErr) :
      Processed (d', logs ++ [.sendto psa (serverReplyMesg junk d.hostname.val resp m)])
  | listed (logs : List Effect) (hlogs : Logs logs) (hadm : Admitted hostsCtl psa req)
      (hcode : req.code = reqStatus) :
      Processed (d, logs ++ [.sendto psa (sendtoReply (status junk d.hostname.val d.config req now).1
        (status junk d.hostname.val d.config req now).2)])
  | touched (i : ℕ) (row : Condata) (logs : List Effect) (hlogs : Logs logs)
      (hadm : Admitted hostsCtl psa req) (hcode : req.code = reqTouchConnection)
      (haddr : Addresses d req i row) :
      Processed ({ d with config := d.config.modify i (touchRow now req.user.val) }, logs)
  | made (i : ℕ) (row : Condata) (logs logs' : List Effect) (hlogs : Logs logs) (hlogs' : Logs logs')
      (hadm : Admitted hostsCtl psa req) (hcode : req.code = reqMakeConnection)
      (haddr : Addresses d req i row) (hfree : row.conpid = badPid) (hpid : 0 ≤ pid) :
      Processed ({ d with config := d.config.modify i (lockRow pid now req.user.val) },
        logs ++ .fork pid i psa :: logs')
  | broken (i : ℕ) (row : Condata) (logs : List Effect) (hlogs : Logs logs)
      (hadm : Admitted hostsCtl psa req) (hcode : req.code = reqBreakConnection)
      (haddr : Addresses d req i row) (hheld : row.conpid ≠ badPid) :
      Processed (d, logs ++ [.kill row.conpid,
        .sendto psa (serverReplyMesg junk d.hostname.val respOk (text "connection broken"))])

theorem makeConnection_processed {i : ℕ} {row : Condata} (hadm : Admitted hostsCtl psa req)
    (hcode : req.code = reqMakeConnection) (haddr : Addresses d req i row)
    (hfree : row.conpid = badPid) {logs : List Effect} (hlogs : Logs logs) :
    let r := makeConnection pid now d psa req i row
    Processed hostsCtl junk pid now d psa req (r.1, logs ++ r.2) := by
  have huser : Logs (if d.logusers then
      [.log (text "user " ++ Request.userString req ++ text ": " ++ row.conprog ++ text " " ++
        row.argsline)]
    else []) := by
    split <;> simp [Logs]
  have hpidlog := logs_vlog d (text "program pid = " ++ fmtD pid)
  intro r
  by_cases hpid : pid < 0
  · have hr : r = (d, _) := if_pos hpid
    rw [hr]
    exact .silent _ (hlogs.append ((huser.append hpidlog).append (by simp [Logs])))
  · have hr : r = (_, _) := if_neg hpid
    rw [hr, List.append_assoc, List.singleton_append, ← List.append_assoc]
    exact .made i row _ _ (hlogs.append huser) hpidlog hadm hcode haddr hfree (by omega)

theorem processRequest_processed : Processed hostsCtl junk pid now d psa req
    (processRequest hostsCtl junk pid now d psa req) := by
  have hnone : Logs [] := by simp [Logs]
  rw [processRequest]
  dsimp only
  split
  · exact .silent _ (by simp [Logs])
  next hctl =>
  split
  · exact .told d [] _ _ hnone rfl (by decide) (by decide) fun _ => rfl
  next hversion =>
  have hadm : Admitted hostsCtl psa req := ⟨by simpa using hctl, not_not.mp hversion⟩
  split
  · next hcode => exact .told _ [] _ _ hnone rfl (by decide) (by decide) (by simp [hcode])
  split
  · next hcode => exact .told _ [] _ _ hnone rfl (by decide) (by decide) (by simp [hcode])
  split
  · next hcode => exact .listed _ (logs_vlog _ _) hadm hcode
  split
  · next hcode =>
      cases hget : getcondata d.config req.conname.val req.conclass.val with
      | none => exact .silent _ (logs_vlog _ _)
      | some i =>
          obtain ⟨row, hrow, -⟩ := getcondata_some hget
          exact .touched i row _ (logs_vlog _ _) hadm hcode ⟨hget, hrow⟩
  split
  · next hcode =>
      cases hget : getcondata d.config req.conname.val req.conclass.val with
      | none => exact .told d _ _ _ (logs_vlog _ _) rfl (by decide) (by decide) fun _ => rfl
      | some i =>
          obtain ⟨row, hrow, -⟩ := getcondata_some hget
          simp only [hrow]
          split
          · exact .told d _ _ _ (logs_vlog _ _) rfl (by decide) (by decide) fun _ => rfl
          · next hfree =>
              exact makeConnection_processed hostsCtl junk pid now d psa req hadm hcode ⟨hget, hrow⟩
                (not_not.mp hfree) (logs_vlog _ _)
  split
  · next hcode =>
      cases hget : getcondata d.config req.conname.val req.conclass.val with
      | none => exact .told d _ _ _ (logs_vlog _ _) rfl (by decide) (by decide) fun _ => rfl
      | some i =>
          obtain ⟨row, hrow, -⟩ := getcondata_some hget
          simp only [hrow]
          split
          · exact .told d _ _ _ (logs_vlog _ _) rfl (by decide) (by decide) fun _ => rfl
          · next hheld => exact .broken i row _ (logs_vlog _ _) hadm hcode ⟨hget, hrow⟩ hheld
  · exact .told d _ _ _ (logs_vlog _ _) rfl (by decide) (by decide) fun _ => rfl

variable {hostsCtl junk pid now d psa req} in
theorem Processed.served {r : Daemon × List Effect}
    (h : Processed hostsCtl junk pid now d psa req r) : Served hostsCtl pid now d psa req r := by
  have hforked : ∀ line, Effect.forked (.log line) = none := fun _ => rfl
  cases h with
  | silent logs hlogs =>
      exact .same rfl (hlogs.filterMap hforked) fun p hp => absurd hp (hlogs.not_mem (by simp))
  | told d' logs resp m hlogs hconfig =>
      refine .same hconfig (by simp [hlogs.filterMap hforked, Effect.forked]) fun p hp => ?_
      simp [hlogs.not_mem] at hp
  | listed logs hlogs =>
      refine .same rfl (by simp [hlogs.filterMap hforked, Effect.forked]) fun p hp => ?_
      simp [hlogs.not_mem] at hp
  | touched i row logs hlogs hadm hcode haddr =>
      by_cases htouch : row.conpid ≠ badPid ∧ strnequ row.user.val req.user.val maxUserName
      · exact .touched i row hadm hcode haddr htouch.1 htouch.2 rfl (hlogs.filterMap hforked)
          fun p => hlogs.not_mem (by simp)
      · refine .same (modify_eq_self fun row' hrow' => ?_) (hlogs.filterMap hforked)
          fun p hp => absurd hp (hlogs.not_mem (by simp))
        obtain rfl : row = row' := Option.some.inj (haddr.2.symm.trans hrow')
        rw [touchRow, if_neg htouch]
  | made i row logs logs' hlogs hlogs' hadm hcode haddr hfree hpid =>
      refine .made i row hadm hcode haddr hfree hpid rfl ?_ fun p hp => ?_
      · simp [hlogs.filterMap hforked, hlogs'.filterMap hforked, Effect.forked]
      · simp [hlogs.not_mem, hlogs'.not_mem] at hp
  | broken i row logs hlogs hadm hcode haddr hheld =>
      refine .same rfl (by simp [hlogs.filterMap hforked, Effect.forked]) fun p hp => ?_
      exact ⟨hadm, hcode, i, row, haddr, hheld, by simpa [hlogs.not_mem] using hp⟩

/-- Every request is served in one of the three ways. -/
theorem processRequest_served : Served hostsCtl pid now d psa req
    (processRequest hostsCtl junk pid now d psa req) :=
  (processRequest_processed hostsCtl junk pid now d psa req).served

/-- The client that an effect is for: a datagram is sent to it, or a child will. -/
def Effect.peer : Effect → Option Addr
  | .sendto dst _ => some dst
  | .fork _ _ peer => some peer
  | _ => none

variable {hostsCtl junk pid now d psa req} in
/-- A request is answered once or not at all, and to its sender. -/
theorem Processed.peers {r : Daemon × List Effect}
    (h : Processed hostsCtl junk pid now d psa req r) :
    r.2.filterMap Effect.peer = [] ∨ r.2.filterMap Effect.peer = [psa] := by
  have hpeer : ∀ line, Effect.peer (.log line) = none := fun _ => rfl
  cases h with
  | silent logs hlogs => exact .inl (hlogs.filterMap hpeer)
  | told d' logs resp m hlogs => exact .inr (by simp [hlogs.filterMap hpeer, Effect.peer])
  | listed logs hlogs => exact .inr (by simp [hlogs.filterMap hpeer, Effect.peer])
  | touched i row logs hlogs => exact .inl (hlogs.filterMap hpeer)
  | made i row logs logs' hlogs hlogs' =>
      exact .inr (by simp [hlogs.filterMap hpeer, hlogs'.filterMap hpeer, Effect.peer])
  | broken i row logs hlogs =>
      exact .inr (by simp [hlogs.filterMap hpeer, List.filterMap_cons, Effect.peer])

end processed

end XinuConsole.Consoled
