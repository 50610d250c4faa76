import XinuConsole.Consoled.Session
import XinuConsole.MakeConnection

/-!
The keep-alive of `src/xinu-console.c`.

`main` prints the names that `makeConnection` leaves in its three buffers and
builds one touch request from them, which `keepalive` sends again and again. A
touch request is not answered, so nobody notices when it names another row than
the one that was granted, or none. `names_handed_back_iff` says when it does
name that row.
-/

namespace XinuConsole

open Lib ConnectUtils Consoled MakeConnection

/-- `g_req`, as `main` initialises it. -/
def touchRequest (g_req : Request) (user : List Byte) (b : Buffers) : Request :=
  initRequest g_req user reqTouchConnection (b.connection.map Subtype.val) (b.cls.map Subtype.val)

/-- The buffers hold the names of the row and of its server. -/
structure NamesRow (b : Buffers) (row : Condata) (server : List Byte) : Prop where
  connection : ∃ a ∈ b.connection, cstr a.val = row.conname
  cls : ∃ a ∈ b.cls, cstr a.val = row.conclass
  host : ∃ a ∈ b.host, cstr a.val = cstr server

/-- Whenever the row number `i` is held by the user, serving the request sets
its time, and that is all it does to the table. -/
def Refreshes (touch : Request) (d : Daemon) (i : ℕ) (user : List Byte) : Prop :=
  ∀ (d' : Daemon) (row : Condata),
    d'.config.map (fun row => (row.conname, row.conclass)) =
      d.config.map (fun row => (row.conname, row.conclass)) →
    d'.config[i]? = some row → row.conpid ≠ badPid → row.userName = user →
    ∀ hostsCtl psa junk pid now, hostsCtl psa (Request.userString touch) = true →
      (processRequest hostsCtl junk pid now d' psa touch).1.config =
        d'.config.modify i fun row => { row with contime := now }

/-! ### The lookup of names that were handed back -/

/-- The names of the row that a request leads to. -/
theorem addresses_names {d : Daemon} {stack : Request} {user : List Byte} {code : Byte}
    {connection cls : Option (List Byte)} {i : ℕ} {row : Condata}
    (haddr : Addresses d (initRequest stack user code connection cls) i row) :
    row.conname = (cstr (connection.getD [])).take 15 ∧
      ((cstr (cls.getD [])).take 15 = [] ∨ row.conclass = (cstr (cls.getD [])).take 15) := by
  obtain ⟨row', hrow', hmatch⟩ := getcondata_some haddr.1
  obtain rfl : row' = row := Option.some.inj (hrow'.symm.trans haddr.2)
  exact (conMatches_initRequest _ _ _ _ _ _).mp hmatch

/-- A request with the names of a row that another request found finds the same row. -/
theorem getcondata_of_addresses {d : Daemon} {stack stack' : Request} {user user' : List Byte}
    {code code' : Byte} {connection cls connection' cls' : Option (List Byte)} {i : ℕ}
    {row : Condata} (haddr : Addresses d (initRequest stack user code connection cls) i row)
    (hname : (cstr (connection'.getD [])).take 15 = row.conname)
    (hclass : (cstr (cls'.getD [])).take 15 = row.conclass) :
    getcondata d.config (initRequest stack' user' code' connection' cls').conname.val
      (initRequest stack' user' code' connection' cls').conclass.val = some i := by
  obtain ⟨hget, hrow⟩ := haddr
  obtain ⟨hi, hfound, hbefore⟩ := List.findIdx?_eq_some_iff_getElem.mp hget
  obtain rfl : d.config[i] = row := (List.getElem?_eq_some_iff.mp hrow).2
  have hmake := (conMatches_initRequest stack user code connection cls _).mp hfound
  refine List.findIdx?_eq_some_iff_getElem.mpr ⟨hi, ?_, fun j hj hearlier => hbefore j hj ?_⟩
  · exact (conMatches_initRequest stack' user' code' connection' cls' _).mpr
      ⟨hname.symm, .inr hclass.symm⟩
  · obtain ⟨hn, hc⟩ := (conMatches_initRequest stack' user' code' connection' cls' _).mp hearlier
    refine (conMatches_initRequest stack user code connection cls _).mpr
      ⟨(hn.trans hname).trans hmake.1, ?_⟩
    rw [hclass] at hc
    rcases hmake.2 with hempty | hrowclass
    · exact .inl hempty
    · rcases hc with hnone | hsame
      · exact .inl (hrowclass.symm.trans hnone)
      · exact .inr (hsame.trans hrowclass)

/-- A touch request with the names of a granted row keeps the row alive. -/
theorem refreshes_of_names {d : Daemon} {stack g_req : Request} {user : List Byte} {code : Byte}
    {connection cls : Option (List Byte)} {i : ℕ} {row : Condata}
    (haddr : Addresses d (initRequest stack user code connection cls) i row) {b : Buffers}
    {server : List Byte} (hnames : NamesRow b row server) :
    Refreshes (touchRequest g_req user b) d i ((cstr user).take 15) := by
  obtain ⟨a, ha, hname⟩ := hnames.connection
  obtain ⟨a', ha', hclass⟩ := hnames.cls
  have hget : getcondata d.config (touchRequest g_req user b).conname.val
      (touchRequest g_req user b).conclass.val = some i := by
    refine getcondata_of_addresses haddr ?_ ?_
    · rw [Option.mem_def.mp ha, Option.map_some, Option.getD_some, hname]
      exact List.take_of_length_le (Nat.le_of_lt_succ row.conname_str.2)
    · rw [Option.mem_def.mp ha', Option.map_some, Option.getD_some, hclass]
      exact List.take_of_length_le (Nat.le_of_lt_succ row.conclass_str.2)
  intro d' row' htable hrow' hheld huser hostsCtl psa junk pid now hctl
  have hget' : getcondata d'.config (touchRequest g_req user b).conname.val
      (touchRequest g_req user b).conclass.val = some i := by
    rw [getcondata_congr _ _ htable]
    exact hget
  have hversion : (touchRequest g_req user b).version = curVersion := rfl
  have hcode : (touchRequest g_req user b).code = reqTouchConnection := rfl
  have huser' : strnequ row'.user.val (touchRequest g_req user b).user.val maxUserName = true := by
    rw [strnequ_user_iff, huser]
    exact cstr_initRequest_user ..
  have hserve : (processRequest hostsCtl junk pid now d' psa (touchRequest g_req user b)).1.config =
      d'.config.modify i (touchRow now (touchRequest g_req user b).user.val) := by
    simp [processRequest, hctl, hversion, hcode, hget']
  rw [hserve]
  apply modify_congr
  intro r hr
  obtain rfl : row' = r := Option.some.inj (hrow'.symm.trans hr)
  rw [touchRow, if_pos ⟨hheld, huser'⟩]

/-! ### What makeConnection hands back -/

section handedBack

variable (envClass : Option (List Byte)) (user : List Byte) (stack : CharArray maxClassName)
  (connection : CharArray maxConnectionName) (cls : CharArray maxClassName)
  (host : CharArray maxHostName) (getserial2 : ℤ)

/-- All three names are given. -/
def FullySpecified (connection : CharArray maxConnectionName) (cls : CharArray maxClassName)
    (host : CharArray maxHostName) : Prop :=
  nonempty (some host) ∧ nonempty (some connection) ∧ nonempty (some cls)

/-- What is in the caller's class buffer at the end is the class of the granted
row: the target was fully specified; or without a second port the status reply
named the class; or with one the row is of the caller's class or its default. -/
def ClassFits (conclass : List Byte) (row : Condata) : Prop :=
  FullySpecified connection cls host ∨
    if getserial2 = 1 then
      (cstr (getdfltClass envClass (some cls) (some connection))).take 15 = row.conclass
    else cstr conclass ≠ [] ∨ row.conclass = []

theorem makeConnection_full (hfull : FullySpecified connection cls host) (h : History) :
    Prog.wp Licensed (makeConnection envClass user stack ⟨some connection, some cls, some host⟩
      getserial2) (fun h' r => 0 ≤ r.1 →
        r.2 = ⟨some connection, some cls, some host⟩ ∧
          Obtained h' r.1 connection.val cls.val host.val) h := by
  rw [MakeConnection.makeConnection, if_pos (show _ ∧ _ ∧ _ from hfull)]
  simp only [Prog.wp_bind, wp_reqGeneric]
  refine ⟨licensed_make _ _ _ _, fun r => ?_⟩
  cases r with
  | none => exact fun hfd => absurd hfd (by simp)
  | some reply =>
      simp only [Prog.wp_bind, wp_connectTCP, licensed_connectTCP, true_and]
      refine fun fd _ => ⟨rfl, h, reply, ?_⟩
      simp

theorem makeConnection_search (hfull : ¬FullySpecified connection cls host) :
    makeConnection envClass user stack ⟨some connection, some cls, some host⟩ getserial2 =
      makeConnection.search envClass user stack ⟨some connection, some cls, some host⟩ getserial2 := by
  rw [MakeConnection.makeConnection]
  exact if_neg hfull

/-- After a search the caller's class buffer has the class of the caller or the
default, cut to the length of the buffer. -/
theorem cstr_defaultClass :
    ∃ a, (defaultClass envClass stack ⟨some connection, some cls, some host⟩).caller = some a ∧
      cstr a.val = (cstr (getdfltClass envClass (some cls) (some connection))).take 15 :=
  ⟨_, rfl, CharArray.cstr_set_strncpy_full cls _ (by decide)⟩

/-- Three names that a request was made with are those of the row it found. -/
theorem namesRow_of_full (hconn : (0 : Byte) ∈ connection.val) (hcls : (0 : Byte) ∈ cls.val)
    (hfull : FullySpecified connection cls host) {d : Daemon} {stack : Request} {user : List Byte}
    {code : Byte} {i : ℕ} {row : Condata}
    (haddr : Addresses d (initRequest stack user code (some connection.val) (some cls.val)) i row) :
    NamesRow ⟨some connection, some cls, some host⟩ row host.val := by
  obtain ⟨hn, hc⟩ := addresses_names haddr
  -- the buffers are terminated, so nothing of their names was cut off
  have hshort := cstr_length_lt_of_mem hconn
  have hshort' := cstr_length_lt_of_mem hcls
  rw [connection.property] at hshort
  rw [cls.property] at hshort'
  rw [Option.getD_some, List.take_of_length_le (Nat.le_of_lt_succ hshort)] at hn
  rw [Option.getD_some, List.take_of_length_le (Nat.le_of_lt_succ hshort')] at hc
  have hclass : cstr cls.val ≠ [] := by
    rw [Ne, ← headD_eq_zero_iff]
    simpa [nonempty] using hfull.2.2
  exact ⟨⟨_, rfl, hn.symm⟩, ⟨_, rfl, (hc.resolve_left hclass).symm⟩, ⟨_, rfl, rfl⟩⟩

/-- After a search the class buffer has the class of the row just if it fits. -/
theorem class_handed_back_iff (hfull : ¬FullySpecified connection cls host)
    {clsBuf : Option (CharArray maxClassName)} (hnull : clsBuf.isSome = true) {conclass : List Byte}
    (hc : if getserial2 = 1 then
        clsBuf = (defaultClass envClass stack ⟨some connection, some cls, some host⟩).caller
      else Holds clsBuf (cstr conclass)) {row : Condata}
    (hrow : (cstr conclass).take 15 = [] ∨ row.conclass = (cstr conclass).take 15) :
    ∃ a, clsBuf = some a ∧ (cstr a.val = row.conclass ↔
      ClassFits envClass connection cls host getserial2 conclass row) := by
  split at hc
  · next h2 =>
      -- the caller's buffer keeps what it had before the second port was looked for
      obtain ⟨a, ha, hclass⟩ := cstr_defaultClass envClass stack connection cls host
      refine ⟨a, hc.trans ha, ?_⟩
      simp [ClassFits, hfull, h2, hclass]
  · next h2 =>
      obtain ⟨a, ha, hclass, hlen⟩ := hc.take hnull
      refine ⟨a, ha, ?_⟩
      simp only [ClassFits, hfull, h2, if_false, false_or, hclass]
      rw [hlen] at hrow
      constructor
      · intro heq
        by_cases hempty : cstr conclass = []
        · exact .inr (heq.symm.trans hempty)
        · exact .inl hempty
      · intro hfits
        rcases hrow with hempty | hrow
        · rw [hempty, hfits.resolve_left (not_not.mpr hempty)]
        · exact hrow.symm

/-- **The names handed back.** For every run of `makeConnection` with all three
buffers that returns a descriptor, the buffers name the row whose make request
was granted, and the touch request built from them keeps that row alive, if and
only if the class fits. -/
theorem names_handed_back_iff (hconn : (0 : Byte) ∈ connection.val) (hcls : (0 : Byte) ∈ cls.val)
    {h : History} {fd : ℤ} {b : Buffers} (hfd : 0 ≤ fd)
    (hrun : Prog.Runs (makeConnection envClass user stack ⟨some connection, some cls, some host⟩
      getserial2) h (fd, b)) :
    ∃ conname conclass server, Obtained h fd conname conclass server ∧
      ∀ (req g_req : Request) (d : Daemon) (i : ℕ) (row : Condata),
        Addresses d (initRequest req user reqMakeConnection (some conname) (some conclass)) i row →
        (NamesRow b row server ∧ Refreshes (touchRequest g_req user b) d i ((cstr user).take 15) ↔
          ClassFits envClass connection cls host getserial2 conclass row) := by
  by_cases hfull : FullySpecified connection cls host
  · obtain ⟨rfl, hgranted⟩ := hrun.post (makeConnection_full envClass user stack connection cls host
      getserial2 hfull []) hfd
    refine ⟨_, _, _, hgranted, fun req g_req d i row haddr => ⟨fun _ => .inl hfull, fun _ => ?_⟩⟩
    have hnames := namesRow_of_full connection cls host hconn hcls hfull haddr
    exact ⟨hnames, refreshes_of_names haddr hnames⟩
  · rw [makeConnection_search envClass user stack connection cls host getserial2 hfull] at hrun
    obtain ⟨hnull, hacq⟩ := hrun.post (search_spec envClass user stack _ getserial2 [])
    obtain ⟨conname, conclass, server, hgranted, hn, hs, hc⟩ := hacq hfd
    refine ⟨conname, conclass, server, hgranted, fun req g_req d i row haddr => ?_⟩
    obtain ⟨hrowname, hrowclass⟩ := addresses_names haddr
    obtain ⟨a₁, ha₁, hstr₁, hlen₁⟩ := hn.take hnull.connection
    obtain ⟨a₃, ha₃, hstr₃, -⟩ := hs.take hnull.host
    obtain ⟨a₂, ha₂, hiff⟩ := class_handed_back_iff envClass stack connection cls host getserial2
      hfull hnull.cls hc hrowclass
    constructor
    · rintro ⟨⟨-, ⟨a, ha, hclass⟩, -⟩, -⟩
      obtain rfl : a = a₂ := Option.some.inj ((Option.mem_def.mp ha).symm.trans ha₂)
      exact hiff.mp hclass
    · intro hfits
      have hnames : NamesRow b row server :=
        ⟨⟨a₁, ha₁, hstr₁.trans (hlen₁.symm.trans hrowname.symm)⟩, ⟨a₂, ha₂, hiff.mpr hfits⟩,
          ⟨a₃, ha₃, hstr₃⟩⟩
      exact ⟨hnames, refreshes_of_names haddr hnames⟩

end handedBack

/-! ### The second serial port -/

/-- A decoded status reply of the server `host`. -/
def statusReply (host : String) (rows : List StatusreplyData) : Reply :=
  { version := curVersion
    code := respOk
    hostname := (CharArray.zero _).store (text host ++ [0])
    numconnections := (CharArray.zero _).store (fmtD rows.length ++ [0])
    details := Mem.ofList (rows.flatMap fun stat =>
      strncpyBytes stat.conname maxConnectionName ++ strncpyBytes stat.conclass maxClassName ++
        [stat.active] ++ strncpyBytes stat.user maxUserName ++
        strncpyBytes stat.contime maxTimeLength) fun _ => 0 }

/-- Ann holds `argo`; its second port, of the class `uart`, is free. -/
def twoPorts (op : Op) : Option (Res op) :=
  match op with
  | .obtainStatus none _ _ => some
      [statusReply "xinu" [⟨text "argo", text "mips", 1, text "ann", text "00:05:00"⟩]]
  | .obtainStatus (some _) _ _ => some
      [statusReply "xinu" [⟨text "argo2", text "uart", 0, [], []⟩]]
  | .reqGeneric _ _ _ _ => some (some
      { statusReply "xinu" [] with
        details := Mem.ofList (text "4000 : connect port") fun _ => 0 })
  | .connectTCP _ _ => some (5 : ℤ)
  | .rand => some (0 : ℕ)
  | .usleep _ => some ()
  | .undefined => none

def emptyBuffers : Buffers :=
  ⟨some (CharArray.zero _), some (CharArray.zero _), some (CharArray.zero _)⟩

/-- Ann's call, with or without `-2`. -/
def annRun (getserial2 : ℤ) : Option (History × ℤ × Buffers) :=
  Prog.exec twoPorts (MakeConnection.makeConnection none (text "ann") (CharArray.zero _)
    emptyBuffers getserial2)

theorem names_handed_back_plain :
    ∃ h b, Prog.Runs (MakeConnection.makeConnection none (text "ann") (CharArray.zero _)
        emptyBuffers 0) h (5, b) ∧
      ∃ conname conclass server, Obtained h 5 conname conclass server ∧
        ∀ (req g_req : Request) (d : Daemon) (i : ℕ) (row : Condata),
          Addresses d (initRequest req (text "ann") reqMakeConnection (some conname)
            (some conclass)) i row →
          (NamesRow b row server ∧
              Refreshes (touchRequest g_req (text "ann") b) d i ((cstr (text "ann")).take 15) ↔
            ClassFits none (CharArray.zero _) (CharArray.zero _) (CharArray.zero _) 0 conclass
              row) := by
  obtain ⟨⟨h, fd, b⟩, hexec⟩ := Option.isSome_iff_exists.mp
    (show (annRun 0).isSome = true by decide +kernel)
  obtain rfl : fd = 5 := by
    have hfd : (annRun 0).map (fun x => x.2.1) = some 5 := by decide +kernel
    rw [hexec] at hfd
    exact Option.some.inj hfd
  exact ⟨h, b, Prog.runs_of_exec hexec, names_handed_back_iff none (text "ann") (CharArray.zero _)
    (CharArray.zero _) (CharArray.zero _) (CharArray.zero _) 0 (by decide) (by decide) (by decide)
    (Prog.runs_of_exec hexec)⟩

/-- The daemon of `twoPorts`, with the given second row. -/
def twoPortsDaemon (row : Condata) : Daemon :=
  { verbose := false, logusers := true, hostname := CharArray.zero _,
    config := [argo, row] }

/-- What `-2` leaves in ann's buffers. -/
def argo2Buffers : Buffers :=
  ⟨some ((CharArray.zero _).strncpy (text "argo2") maxConnectionName),
    some ((CharArray.zero _).strncpy (text "mips") maxClassName),
    some ((CharArray.zero _).strncpy (text "xinu") maxHostName)⟩

def argo2 : Condata := { entry "argo2" with conclass := text "uart", conclass_str := by decide }

/-- With `-2` ann gets the second port of `argo`. The names she is left with are
`argo2` and `mips`; her touch requests find no row. -/
theorem second_port_not_named :
    ∃ h b, Prog.Runs (MakeConnection.makeConnection none (text "ann") (CharArray.zero _)
        emptyBuffers 1) h (5, b) ∧
      ∃ conname conclass server, Obtained h 5 conname conclass server ∧
        ∃ (req g_req : Request) (d : Daemon) (i : ℕ) (row : Condata),
          Addresses d (initRequest req (text "ann") reqMakeConnection (some conname)
            (some conclass)) i row ∧
          ¬NamesRow b row server ∧ ¬Refreshes (touchRequest g_req (text "ann") b) d i (text "ann") := by
  obtain ⟨⟨h, fd, b⟩, hexec⟩ := Option.isSome_iff_exists.mp
    (show (annRun 1).isSome = true by decide +kernel)
  have hresult : (annRun 1).map Prod.snd = some (5, argo2Buffers) := by decide +kernel
  have hops : (annRun 1).map (fun x => (x.1.map Answered.op).dropLast.getLast?) =
      some (some (.reqGeneric (text "argo2") (text "uart") (text "xinu") reqMakeConnection)) := by
    decide +kernel
  rw [hexec] at hresult hops
  obtain ⟨rfl, rfl⟩ := Prod.mk.inj (Option.some.inj hresult)
  have hrun := Prog.runs_of_exec hexec
  refine ⟨h, _, hrun, ?_⟩
  obtain ⟨-, hacq⟩ := hrun.post (search_spec none (text "ann") (CharArray.zero _) emptyBuffers 1 [])
  obtain ⟨conname, conclass, server, hobtained, -, -, -⟩ := hacq (by decide)
  have hlast := (Obtained.ops (h := h) hobtained).symm.trans (Option.some.inj hops)
  obtain ⟨rfl, rfl, rfl, -⟩ := Op.reqGeneric.inj (Option.some.inj hlast)
  refine ⟨_, _, _, hobtained, ?_⟩
  let stack : Request := ⟨0, 0, CharArray.zero _, CharArray.zero _, CharArray.zero _⟩
  refine ⟨stack, stack, twoPortsDaemon argo2, 1, argo2, ⟨by decide, rfl⟩, ?_, ?_⟩
  · rintro ⟨-, ⟨a, ha, hclass⟩, -⟩
    obtain rfl := Option.some.inj ha
    exact absurd hclass (by decide)
  · intro hrefresh
    have htouched := hrefresh (twoPortsDaemon (lockRow 7 100 (text "ann") argo2))
      (lockRow 7 100 (text "ann") argo2) rfl rfl (by decide) (by decide) noWrappers sampleAddr
      zeroReply (-1) 200 rfl
    exact absurd (congrArg (List.map Condata.contime) htouched) (by decide)

end XinuConsole
