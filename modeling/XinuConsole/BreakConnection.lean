import XinuConsole.Consoled.StatusFits
import XinuConsole.MakeConnection
import XinuConsole.StatusRoundTrip

/-!
`lib/breakConnection.c`: a client that breaks a connection by its name.

Without a host it asks the servers for their status first and sends the break
request to the first one that lists a row. The daemon looks the names up with
`getcondata`, which finds the rows that `Status` lists.
-/

namespace XinuConsole.MakeConnection

open Lib ConnectUtils Consoled

/-- `reqGeneric` with its return value only. -/
def reqBreak (connection cls host : List Byte) : Client ℤ := do
  match ← reqGeneric connection cls host reqBreakConnection with
  | none => pure (-1)
  | some _ => pure 0

/-- The loop over the status replies. -/
def breakFirst (connection cls : List Byte) : List Reply → Client ℤ
  | [] => pure (-1)
  | reply :: replies =>
      if 0 < atoi reply.numconnections.val then
        reqBreak connection cls (cstr reply.hostname.val)
      else breakFirst connection cls replies

/-- `breakConnection`. -/
def breakConnection (connection cls host : Option (List Byte)) : Client ℤ :=
  match connection with
  | none => pure (-1)
  | some name =>
    if name.headD 0 = 0 then pure (-1)
    else
      match host with
      | some server =>
          if server.headD 0 = 0 then anyServer name else reqBreak name (cls.getD []) server
      | none => anyServer name
where
  anyServer (name : List Byte) : Client ℤ := do
    let replies ← obtainStatus (some name) cls none
    breakFirst name (cls.getD []) replies

/-- A break request has the fields of the call and a name; if the call names no
host then it goes to a server whose status reply for these fields counts a row. -/
def Aimed (connection cls host : Option (List Byte)) (h : History) (op : Op) : Prop :=
  ∀ conname conclass server code, op = .reqGeneric conname conclass server code →
    code = reqBreakConnection ∧ connection = some conname ∧ conname.headD 0 ≠ 0 ∧
      conclass = cls.getD [] ∧ (host.all (fun name => name.headD 0 = 0) = true →
        ∃ (replies : List Reply) (reply : Reply), ⟨.obtainStatus connection cls none, replies⟩ ∈ h ∧
          reply ∈ replies ∧ server = cstr reply.hostname.val ∧
          0 < atoi reply.numconnections.val)

section Aimed

variable {connection cls host : Option (List Byte)} {name : List Byte}

theorem reqBreak_aimed {server : List Byte} {h : History} (hname : name.headD 0 ≠ 0)
    (hcall : host.all (fun name => name.headD 0 = 0) = true →
      ∃ (replies : List Reply) (reply : Reply), ⟨.obtainStatus (some name) cls none, replies⟩ ∈ h ∧
        reply ∈ replies ∧ server = cstr reply.hostname.val ∧ 0 < atoi reply.numconnections.val) :
    Prog.wp (Aimed (some name) cls host) (reqBreak name (cls.getD []) server) (fun _ _ => True)
      h := by
  simp only [reqBreak, reqGeneric, Prog.wp_bind, Prog.wp_perform]
  constructor
  · intro conname conclass server' code hop
    obtain ⟨rfl, rfl, rfl, rfl⟩ := Op.reqGeneric.inj hop
    exact ⟨rfl, rfl, hname, rfl, hcall⟩
  · intro r
    cases r <;> trivial

theorem breakFirst_aimed {h : History} (hname : name.headD 0 ≠ 0) {replies all : List Reply}
    (hall : replies ⊆ all) (hmem : ⟨.obtainStatus (some name) cls none, all⟩ ∈ h) :
    Prog.wp (Aimed (some name) cls host) (breakFirst name (cls.getD []) replies)
      (fun _ _ => True) h := by
  induction replies with
  | nil => trivial
  | cons reply replies ih =>
      rw [breakFirst]
      split
      · next hcount =>
        exact reqBreak_aimed hname fun _ =>
          ⟨all, reply, hmem, hall List.mem_cons_self, rfl, hcount⟩
      · exact ih fun r hr => hall (List.mem_cons_of_mem _ hr)

theorem anyServer_aimed {h : History} (hname : name.headD 0 ≠ 0) :
    Prog.wp (Aimed (some name) cls host) (breakConnection.anyServer cls name) (fun _ _ => True)
      h := by
  simp only [breakConnection.anyServer, obtainStatus, Prog.wp_bind, Prog.wp_perform]
  constructor
  · intro conname conclass server code hop
    exact absurd hop (by simp)
  · intro replies
    exact breakFirst_aimed hname (List.Subset.refl _)
      (List.mem_append_right _ (List.mem_singleton.mpr rfl))

variable (connection cls host) in
theorem breakConnection_aimed (h : History) :
    Prog.wp (Aimed connection cls host) (breakConnection connection cls host) (fun _ _ => True)
      h := by
  unfold breakConnection
  split
  · trivial
  split
  · trivial
  next hname =>
  split
  · next server =>
    split
    · exact anyServer_aimed hname
    · next hserver =>
      refine reqBreak_aimed hname fun hnone => ?_
      rw [Option.all_some, decide_eq_true_eq] at hnone
      exact absurd hnone hserver
  · exact anyServer_aimed hname

end Aimed

theorem aimed_of_runs {connection cls host : Option (List Byte)} {h : History} {rv : ℤ}
    (hruns : Prog.Runs (breakConnection connection cls host) h rv) {op : Op} {r : Res op}
    (hmem : ⟨op, r⟩ ∈ h) : Aimed connection cls host h op := by
  obtain ⟨as, bs, hh⟩ := List.append_of_mem hmem
  have haimed := hruns.called (breakConnection_aimed connection cls host []) hh
  intro conname conclass server code hop
  obtain ⟨hcode, hconn, hname, hcls, hserver⟩ := haimed conname conclass server code hop
  refine ⟨hcode, hconn, hname, hcls, fun hnone => ?_⟩
  obtain ⟨replies, reply, hasked, hreply⟩ := hserver hnone
  exact ⟨replies, reply, hh ▸ List.mem_append_left _ hasked, hreply⟩

end XinuConsole.MakeConnection

namespace XinuConsole.Consoled

open Lib ConnectUtils MakeConnection

variable {hostsCtl : Addr → List Byte → Bool}

/-- No datagram among the effects says that the connection was not found. -/
def Found (fx : List Effect) : Prop :=
  ∀ dst dgram, Effect.sendto dst dgram ∈ fx →
    cstr (dgram.drop 70) ≠ text "connection not found"

/-- The answer to a status request: one datagram, with the listing behind its header. -/
def Answers (m : Machine) (psa : Addr) (req : Request) (junk : Reply) (now : ℤ)
    (fx : List Effect) : Prop :=
  ∃ dgram : List Byte, Effect.sendto psa dgram ∈ fx ∧
    (∀ dst dgram', Effect.sendto dst dgram' ∈ fx → dst = psa ∧ dgram' = dgram) ∧
    dgram.drop (sizeofReply - maxDetails) = listing junk m.daemon.hostname.val m.config req now

section Answer

variable {m m' : Machine} {psa dst : Addr} {req : Request} {junk : Reply} {pid now : ℤ}
  {fx : List Effect} {dgram : List Byte}

/-- Serving a status request sends nothing but the status reply. -/
theorem sendto_of_status (hcode : req.code = reqStatus) (hversion : req.version = curVersion)
    (hphase : m.phase = .serving psa req) (hs : Step hostsCtl m (.serve junk pid now, fx) m')
    (hsent : Effect.sendto dst dgram ∈ fx) :
    dst = psa ∧ dgram = sendtoReply (status junk m.daemon.hostname.val m.config req now).1
      (status junk m.daemon.hostname.val m.config req now).2 := by
  obtain ⟨-, r, hr, hfx, -, -⟩ := hs.served hphase
  rw [hfx, hr] at hsent
  cases hctl : hostsCtl psa (Request.userString req) with
  | false => simp [processRequest, hctl] at hsent
  | true =>
      have hlog := (logs_vlog m.daemon (text "received a status request")).not_mem
        (e := .sendto dst dgram) (by simp)
      simp [processRequest, hctl, hversion, hcode, hlog] at hsent
      exact hsent

theorem answers_of_admitted (hphase : m.phase = .serving psa req)
    (hadm : Admitted hostsCtl psa req) (hcode : req.code = reqStatus)
    (hs : Step hostsCtl m (.serve junk pid now, fx) m') : Answers m psa req junk now fx :=
  ⟨_, status_sent hphase hadm hcode hs,
    fun _ _ hsent => sendto_of_status hcode hadm.2 hphase hs hsent, rfl⟩

/-- An accepted status reply counts a row exactly if it lists one. -/
theorem count_pos_iff_listed (hsize : m.config.length ≤ maxConnections)
    (hcode : req.code = reqStatus) (hversion : req.version = curVersion)
    (hphase : m.phase = .serving psa req) (hs : Step hostsCtl m (.serve junk pid now, fx) m')
    (hsent : Effect.sendto dst dgram ∈ fx) {stack : Mem} {prior : Reply}
    (hret : (recvfromReply stack (some dgram) prior).ret ≠ -1) :
    0 < atoi (recvfromReply stack (some dgram) prior).reply.numconnections.val ↔
      dgram.drop (sizeofReply - maxDetails) ≠ [] := by
  obtain ⟨-, rfl⟩ := sendto_of_status hcode hversion hphase hs hsent
  have hcount := (recvfromReply_status_accepted m.config req m.daemon.hostname.val now hsize junk
    prior stack hret).1
  rw [hcount, Int.natCast_pos, List.length_pos_iff]
  exact not_congr (listing_eq_nil_iff junk m.daemon.hostname.val m.config req now).symm

end Answer

/-- Requests with the same names look up the same rows. -/
theorem getcondata_fields (config : List Condata) (stack stack' : Request) (user user' : List Byte)
    (code code' : Byte) {connection connection' cls cls' : Option (List Byte)}
    (hname : connection.getD [] = connection'.getD []) (hclass : cls.getD [] = cls'.getD []) :
    getcondata config (initRequest stack user code connection cls).conname.val
        (initRequest stack user code connection cls).conclass.val =
      getcondata config (initRequest stack' user' code' connection' cls').conname.val
        (initRequest stack' user' code' connection' cls').conclass.val := by
  unfold getcondata
  congr 1
  funext row
  refine Bool.eq_iff_iff.mpr ((conMatches_initRequest stack user code connection cls row).trans
    (Iff.trans ?_ (conMatches_initRequest stack' user' code' connection' cls' row).symm))
  rw [hname, hclass]

/-- A break request that addresses a row is not answered that there is none. -/
theorem found_of_addresses {d : Daemon} {psa : Addr} {req : Request}
    (hcode : req.code = reqBreakConnection) (hversion : req.version = curVersion) {i : ℕ}
    {row : Condata} (haddr : Addresses d req i row) (junk : Reply) (pid now : ℤ) :
    Found (processRequest hostsCtl junk pid now d psa req).2 := by
  intro dst dgram hsent
  cases hctl : hostsCtl psa (Request.userString req) with
  | false => simp [processRequest, hctl] at hsent
  | true =>
      have hlog := (logs_vlog d (text "received a break-connection request")).not_mem
        (e := .sendto dst dgram) (by simp)
      by_cases hfree : row.conpid = badPid
      · simp [processRequest, hctl, hversion, hcode, haddr.1, haddr.2, hfree, hlog] at hsent
        rw [hsent.2, cstr_serverReplyMesg]
        decide
      · simp [processRequest, hctl, hversion, hcode, haddr.1, haddr.2, hfree, hlog] at hsent
        rw [hsent.2, cstr_serverReplyMesg]
        decide

/-- **Lookup and listing agree.** What a status request is answered is the
listing of the table. For a request with a name the lookup finds the row whose
record the listing begins with, and none if it is empty; without a name it
finds none. So the break request that `breakConnection` sends after a status
reply that counts a row is not answered that there is none. -/
theorem lookup_agrees_listing (hostsCtl : Addr → List Byte → Bool) {sys : Config.System}
    {file : Option (List Byte)} {m₀ : Machine} (hload : Loaded sys file m₀)
    {labels : List (Event × List Effect)} {m : Machine} (hr : Run (Step hostsCtl) m₀ labels m) :
    (∀ psa req junk pid now fx m₁, m.phase = .serving psa req → Admitted hostsCtl psa req →
      req.code = reqStatus → Step hostsCtl m (.serve junk pid now, fx) m₁ →
      Answers m psa req junk now fx) ∧
    (∀ req : Request, req.conname.val.headD 0 ≠ 0 → ∀ junk hostname now,
      (∀ i row, Addresses m.daemon req i row ↔
        ListsFirst junk hostname m.config req now i row) ∧
      (getcondata m.config req.conname.val req.conclass.val = none ↔
        listing junk hostname m.config req now = [])) ∧
    (∀ req : Request, req.conname.val.headD 0 = 0 →
      getcondata m.config req.conname.val req.conclass.val = none) ∧
    ∀ connection cls host h rv conname conclass server code r,
      Prog.Runs (breakConnection connection cls host) h rv →
      ⟨.reqGeneric conname conclass server code, r⟩ ∈ h →
      Aimed connection cls host h (.reqGeneric conname conclass server code) ∧
      ∀ stack user psa junk pid now fx m₁ dst dgram junk₁ prior,
        m.phase = .serving psa (initRequest stack user reqStatus connection cls) →
        Step hostsCtl m (.serve junk pid now, fx) m₁ → Effect.sendto dst dgram ∈ fx →
        (recvfromReply junk₁ (some dgram) prior).ret ≠ -1 →
        (0 < atoi (recvfromReply junk₁ (some dgram) prior).reply.numconnections.val ↔
          dgram.drop (sizeofReply - maxDetails) ≠ []) ∧
        (0 < atoi (recvfromReply junk₁ (some dgram) prior).reply.numconnections.val →
          ∀ labels' m₂ stack' user' psa' junk' pid' now' fx' m₃,
            Run (Step hostsCtl) m₁ labels' m₂ →
            m₂.phase = .serving psa'
              (initRequest stack' user' code (some conname) (some conclass)) →
            Step hostsCtl m₂ (.serve junk' pid' now', fx') m₃ → Found fx') := by
  obtain ⟨hnamed, hsize⟩ := hload.run hr
  refine ⟨fun psa req junk pid now fx m₁ hphase hadm hcode hs =>
      answers_of_admitted hphase hadm hcode hs,
    fun req hname junk hostname now =>
      ⟨addresses_iff_listsFirst junk hostname hname now,
        getcondata_eq_none_iff junk hostname hname now⟩,
    fun req hname => getcondata_unnamed hnamed hname, ?_⟩
  intro connection cls host h rv conname conclass server code r hruns hmem
  have haimed := aimed_of_runs hruns hmem
  refine ⟨haimed, ?_⟩
  intro stack user psa junk pid now fx m₁ dst dgram junk₁ prior hphase hs hsent hret
  have hiff := count_pos_iff_listed hsize rfl rfl hphase hs hsent hret
  refine ⟨hiff, ?_⟩
  intro hcount labels' m₂ stack' user' psa' junk' pid' now' fx' m₃ hr' hphase' hs'
  obtain ⟨rfl, rfl, hname, rfl, -⟩ := haimed conname conclass server code rfl
  obtain ⟨-, hdgram⟩ := sendto_of_status rfl rfl hphase hs hsent
  have hlisted := hiff.mp hcount
  rw [hdgram] at hlisted
  have hnames : names m₂.config = names m.config := (names_of_run hr').trans hs.names
  -- both requests have the same strings in their fields
  have hget : getcondata m₂.daemon.config
      (initRequest stack' user' reqBreakConnection (some conname) (some (cls.getD []))).conname.val
      (initRequest stack' user' reqBreakConnection (some conname) (some (cls.getD []))).conclass.val
      ≠ none := by
    intro hnone
    have hfields := @getcondata_fields m.config stack stack' user user' reqStatus
      reqBreakConnection (some conname) (some conname) cls (some (cls.getD [])) rfl rfl
    refine hlisted ((getcondata_eq_none_iff junk m.daemon.hostname.val (fun hzero => hname ?_)
      now).mp (hfields.trans ((getcondata_congr _ _ hnames).symm.trans hnone)))
    rw [headD_eq_zero_iff, cstr_initRequest_conname] at hzero
    exact (headD_eq_zero_iff _).mpr ((List.take_eq_nil_iff.mp hzero).resolve_left (by decide))
  obtain ⟨i, hi⟩ := Option.ne_none_iff_exists'.mp hget
  obtain ⟨row, hrow, -⟩ := getcondata_some hi
  obtain ⟨-, r', hr', hfx, -, -⟩ := hs'.served hphase'
  rw [hfx, hr']
  exact found_of_addresses rfl rfl ⟨hi, hrow⟩ junk' pid' now'

/-- Asked with the names of the second row of the pool, the daemon finds the
first, and the listing begins with it. -/
theorem lookup_agrees_listing_pool :
    ∃ (m : Machine) (first second : Condata), Loaded sampleSystem (some poolFile) m ∧
      m.config = [first, second] ∧ second ≠ first ∧
      ∀ junk hostname now, ListsFirst junk hostname m.config
        (initRequest zeroRequest [] reqStatus (some second.conname) (some second.conclass))
        now 0 first := by
  obtain ⟨rows, first, second, hread, rfl, hsame, hprog⟩ := poolFile_read
  have hload : Loaded sampleSystem (some poolFile)
      { sampleMachine with
        daemon := { sampleMachine.daemon with config := [first, second] } } :=
    ⟨hread, by simp [sampleMachine], by simp [sampleMachine], rfl⟩
  have hname : second.conname ≠ [] :=
    ((Config.readConfigurationFile_fresh hread).1 second (by simp)).named
  refine ⟨_, first, second, hload, rfl, fun h => hprog (congrArg Condata.conprog h.symm), ?_⟩
  intro junk hostname now
  refine ((lookup_agrees_listing noWrappers hload (.nil _)).2.1 _ ?_ junk hostname now).1 0 first
    |>.mp ⟨?_, rfl⟩
  · intro hzero
    rw [headD_eq_zero_iff, cstr_initRequest_conname, Option.getD_some,
      cstr_of_not_mem second.conname_str.1] at hzero
    exact hname ((List.take_eq_nil_iff.mp hzero).resolve_left (by decide))
  · refine (getcondata_initRequest _ zeroRequest [] reqStatus second).trans ?_
    rw [getcondata, List.findIdx?_cons, (conMatches_own second first).mpr hsame]
    rfl

end XinuConsole.Consoled
