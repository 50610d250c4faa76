import XinuConsole.CommandLine
import XinuConsole.Reservation
import XinuConsole.Consoled.Lookup

/-!
From the command line of `xinu-console` to the row that is granted.

With a connection, a class and a server on the command line the client asks the
server at once. Without one of them it first asks for the status of the rows
under the names it has, and then for a row of an answer. The names are cut to
fifteen characters on the way in, and the daemon compares what it gets.
-/

namespace XinuConsole.Target

open Lib ConnectUtils Consoled MakeConnection Reservation CommandLine

/-- The caller's buffers of `makeConnection`. -/
def buffers (a : Args) : Buffers :=
  { connection := some a.connection
    cls := some a.cls
    host := some ⟨a.host.val.take maxHostName, by simp [a.host.property]⟩ }

/-- The test of `makeConnection` for all three names. -/
def Direct (b : Buffers) : Prop :=
  nonempty b.host = true ∧ nonempty b.connection = true ∧ nonempty b.cls = true

/-! ### The names in a make request -/

/-- The names are those of a record that a reply to a status request announces. -/
def FromStatus (h : History) (conname conclass : List Byte) : Prop :=
  ∃ connection cls host, ∃ replies : List Reply,
    ⟨.obtainStatus connection cls host, replies⟩ ∈ h ∧ ∃ reply ∈ replies, ∃ j : ℕ,
      (j : ℤ) < atoi reply.numconnections.val ∧ conname = (reply.stat j).conname ∧
        conclass = (reply.stat j).conclass

/-- In the search a row is asked for by a status record, and the status requests
carry the caller's names. -/
def Searches (b : Buffers) (cls : Option (List Byte)) (h : History) (op : Op) : Prop :=
  (∀ conname conclass host, op = .reqGeneric conname conclass host reqMakeConnection →
    FromStatus h conname conclass) ∧
  ∀ connection cls' host, op = .obtainStatus connection cls' host →
    connection = b.connection.map Subtype.val ∧ cls' = cls

theorem FromStatus.mono {h h' : History} {conname conclass : List Byte}
    (hf : FromStatus h conname conclass) (hh : h <+: h') : FromStatus h' conname conclass := by
  obtain ⟨connection, cls, host, replies, hmem, hrest⟩ := hf
  exact ⟨connection, cls, host, replies, hh.subset hmem, hrest⟩

theorem searches_of_ne {b : Buffers} {cls : Option (List Byte)} {h : History} {op : Op}
    (hmake : ∀ conname conclass host, op ≠ .reqGeneric conname conclass host reqMakeConnection)
    (hstatus : ∀ connection cls host, op ≠ .obtainStatus connection cls host) :
    Searches b cls h op :=
  ⟨fun _ _ _ he => absurd he (hmake _ _ _), fun _ _ _ he => absurd he (hstatus _ _ _)⟩

section Search

variable {b₀ : Buffers} {cls₀ : Option (List Byte)}

theorem searches_undefined (h : History) : Searches b₀ cls₀ h .undefined :=
  searches_of_ne (by simp) (by simp)

theorem makeRow_searches (connection : Option (CharArray maxConnectionName))
    (cls : Option (CharArray maxClassName)) (host : List Byte) {stat : StatusreplyData} {h : History}
    (hstat : FromStatus h stat.conname stat.conclass) :
    Prog.wp (Searches b₀ cls₀) (makeRow connection cls host stat) (fun _ _ => True) h := by
  simp only [makeRow, Prog.wp_bind, wp_reqGeneric]
  refine ⟨⟨fun _ _ _ he => ?_, by simp⟩, fun r => ?_⟩
  · obtain ⟨rfl, rfl, -, -⟩ := Op.reqGeneric.inj he
    exact hstat
  · cases r with
    | none => trivial
    | some reply =>
        simp only [Prog.wp_bind]
        apply copyOut_spec (searches_undefined _)
        intro connection' _ _
        apply copyOut_spec (searches_undefined _)
        intro cls' _ _
        simp only [wp_connectTCP, Prog.wp_pure, implies_true, and_true]
        exact searches_of_ne (by simp) (by simp)

theorem breakRow_searches (host : List Byte) (stat : StatusreplyData) (h : History) :
    Prog.wp (Searches b₀ cls₀) (breakRow host stat) (fun _ _ => True) h := by
  unfold breakRow
  cases getMinutes stat.contime with
  | none => simpa using searches_undefined h
  | some minutes =>
      dsimp only
      split
      · trivial
      · simp only [Prog.wp_bind, wp_reqGeneric]
        refine ⟨searches_of_ne (by simp) (by simp), fun r => ?_⟩
        cases r with
        | none => trivial
        | some reply =>
            simp only [Prog.wp_bind, wp_usleep, Prog.wp_pure, implies_true, and_true]
            exact searches_of_ne (by simp) (by simp)

theorem reqTCPConnection_searches (connection : Option (CharArray maxConnectionName))
    (cls : Option (CharArray maxClassName)) (host : List Byte) (steal : Bool)
    {stat : StatusreplyData} {h : History}
    (hstat : FromStatus h stat.conname stat.conclass) :
    Prog.wp (Searches b₀ cls₀) (reqTCPConnection connection cls host steal stat)
      (fun _ _ => True) h := by
  unfold reqTCPConnection
  split
  · trivial
  · split
    · rw [Prog.wp_bind]
      refine Prog.wp_mono (fun h' go hh _ => ?_) (breakRow_searches host stat h)
      split
      · exact makeRow_searches connection cls host (hstat.mono hh)
      · trivial
    · exact makeRow_searches connection cls host hstat

theorem tryRows_searches (steal : Bool) {reply : Reply} {free : List ℕ} (k randgrab : ℕ) (b : Buffers)
    {h : History} (hgrab : randgrab < free.length)
    (hfree : ∀ j ∈ free, FromStatus h (reply.stat j).conname (reply.stat j).conclass) :
    Prog.wp (Searches b₀ cls₀) (tryRows steal reply free k randgrab b) (fun _ _ => True) h := by
  induction k generalizing randgrab b h with
  | zero => trivial
  | succ k ih =>
      have hj : free.getD randgrab 0 ∈ free := by
        rw [List.getD_eq_getElem _ _ hgrab]
        exact List.getElem_mem hgrab
      rw [tryRows, Prog.wp_bind]
      refine Prog.wp_mono ?_ (reqTCPConnection_searches _ _ _ steal (hfree _ hj))
      rintro h' ⟨fd, connection, cls⟩ hh -
      dsimp only
      split
      · rw [Prog.wp_bind]
        apply copyOut_spec (searches_undefined _)
        intro host _ _
        trivial
      · exact ih _ _ (Nat.mod_lt _ (by omega)) fun j hj => (hfree j hj).mono hh

theorem getTCPConnection_searches (steal : Bool) (replies : List Reply) (b : Buffers) {h : History}
    (hgot : ∃ connection cls host, ∃ all : List Reply,
      ⟨.obtainStatus connection cls host, all⟩ ∈ h ∧ ∀ reply ∈ replies, reply ∈ all) :
    Prog.wp (Searches b₀ cls₀) (getTCPConnection steal replies b) (fun _ _ => True) h := by
  induction replies generalizing b h with
  | nil => trivial
  | cons reply replies ih =>
      obtain ⟨connection, cls, host, all, hmem, hall⟩ := hgot
      rw [getTCPConnection, Prog.wp_bind]
      refine Prog.wp_mono (fun h₁ free hh₁ hbound => ?_)
        (indeces_spec searches_undefined steal reply (atoi reply.numconnections.val).toNat 0 h)
      simp only [Prog.wp_bind, wp_rand]
      refine ⟨searches_of_ne (by simp) (by simp), fun random => ?_⟩
      have hh₂ : h <+: h₁ ++ [⟨.rand, random⟩] := hh₁.trans (List.prefix_append _ _)
      split
      · simpa using searches_undefined _
      · next hne =>
          rw [Prog.wp_bind]
          refine Prog.wp_mono ?_ (tryRows_searches steal free.length _ b
            (Nat.mod_lt random (List.length_pos_of_ne_nil hne)) fun j hj => ?_)
          · rintro h₃ ⟨fd, b'⟩ hh₃ -
            dsimp only
            split
            · trivial
            · exact ih b' ⟨connection, cls, host, all, (hh₂.trans hh₃).subset hmem,
                fun r hr => hall r (List.mem_cons_of_mem _ hr)⟩
          · have hlt := hbound j hj
            exact ⟨connection, cls, host, all, hh₂.subset hmem, reply,
              hall reply List.mem_cons_self,
              j, by omega, rfl, rfl⟩

theorem acquire_searches {b : Buffers} (hconnection : b.connection = b₀.connection)
    (hcls : b.cls.map Subtype.val = cls₀) (h : History) :
    Prog.wp (Searches b₀ cls₀) (acquire b) (fun _ _ => True) h := by
  simp only [acquire, Prog.wp_bind, wp_obtainStatus]
  refine ⟨⟨by simp, fun connection cls host he => ?_⟩, fun replies => ?_⟩
  · obtain ⟨rfl, rfl, -⟩ := Op.obtainStatus.inj he
    exact ⟨congrArg _ hconnection, hcls⟩
  · split
    · trivial
    · have hgot : ∀ h', (h ++ [⟨.obtainStatus (b.connection.map Subtype.val) (b.cls.map Subtype.val)
          (b.host.map Subtype.val), replies⟩]) <+: h' → ∃ connection cls host, ∃ all : List Reply,
          ⟨.obtainStatus connection cls host, all⟩ ∈ h' ∧ ∀ reply ∈ replies, reply ∈ all :=
        fun h' hh => ⟨_, _, _, replies, hh.subset (List.mem_append_right _ List.mem_cons_self),
          fun r hr => hr⟩
      rw [Prog.wp_bind]
      refine Prog.wp_mono ?_ (getTCPConnection_searches false replies b (hgot _ List.prefix_rfl))
      rintro h' ⟨fd, b'⟩ hh -
      dsimp only
      split
      · trivial
      · exact getTCPConnection_searches true replies b' (hgot h' hh)

end Search

section Called

variable (envClass : Option (List Byte)) (user : List Byte) (stack : CharArray maxClassName) {a : Args}
  {getserial2 : ℤ}

/-- With all three names the caller's names are asked for. -/
theorem makeConnection_direct (hdirect : Direct (buffers a)) (getserial2 : ℤ) :
    Prog.wp (fun _ op => ∀ conname conclass host,
        op = .reqGeneric conname conclass host reqMakeConnection →
          conname = a.connection.val ∧ conclass = a.cls.val)
      (MakeConnection.makeConnection envClass user stack (buffers a) getserial2)
      (fun _ _ => True) [] := by
  have hcalled : MakeConnection.makeConnection envClass user stack (buffers a) getserial2 = _ :=
    if_pos hdirect
  rw [hcalled]
  simp only [Prog.wp_bind, wp_reqGeneric]
  refine ⟨fun conname conclass host he => ?_, fun r => ?_⟩
  · obtain ⟨rfl, rfl, -, -⟩ := Op.reqGeneric.inj he
    exact ⟨rfl, rfl⟩
  · cases r with
    | none => trivial
    | some reply => simp

/-- The class that a search looks for. -/
def classLookedFor (a : Args) : Option (List Byte) :=
  (defaultClass envClass stack (buffers a)).pointee.map Subtype.val

theorem makeConnection_of_not_direct (hdirect : ¬Direct (buffers a)) (hfirst : getserial2 ≠ 1) :
    MakeConnection.makeConnection envClass user stack (buffers a) getserial2 =
      acquireFor (defaultClass envClass stack (buffers a)) (buffers a).connection (buffers a).host := by
  have hsearch : MakeConnection.makeConnection envClass user stack (buffers a) getserial2 =
      makeConnection.search envClass user stack (buffers a) getserial2 := if_neg hdirect
  rw [hsearch, makeConnection.search]
  exact if_neg hfirst

theorem makeConnection_searches (hdirect : ¬Direct (buffers a)) (hfirst : getserial2 ≠ 1) :
    Prog.wp (Searches (buffers a) (classLookedFor envClass stack a))
      (MakeConnection.makeConnection envClass user stack (buffers a) getserial2)
      (fun _ _ => True) [] := by
  rw [makeConnection_of_not_direct envClass user stack hdirect hfirst, acquireFor, Prog.wp_bind]
  exact Prog.wp_mono (fun _ _ _ _ => trivial) (acquire_searches rfl rfl [])

end Called

/-- A class that is given is looked for. -/
theorem classLookedFor_of_given (envClass : Option (List Byte)) (stack : CharArray maxClassName)
    {a : Args} (hcls : cstr a.cls.val ≠ []) :
    ∃ cls, classLookedFor envClass stack a = some cls ∧ cstr cls = (cstr a.cls.val).take 15 := by
  have hhead : a.cls.val.headD 0 ≠ 0 := fun h => hcls ((headD_eq_zero_iff _).mp h)
  refine ⟨_, rfl, ?_⟩
  have hdflt : getdfltClass envClass (buffers a).cls (buffers a).connection = a.cls.val := by
    simp only [getdfltClass, buffers, if_pos hhead]
  rw [hdflt]
  exact CharArray.cstr_set_strncpy_full a.cls a.cls.val (by decide)

/-- In a search for a connection without a class every class will do. -/
theorem classLookedFor_of_unnamed (envClass : Option (List Byte)) (stack : CharArray maxClassName)
    {a : Args} (hcls : cstr a.cls.val = []) (hconnection : cstr a.connection.val ≠ []) :
    ∃ cls, classLookedFor envClass stack a = some cls ∧ cstr cls = [] := by
  have hhead : a.cls.val.headD 0 = 0 := (headD_eq_zero_iff _).mpr hcls
  have hname : a.connection.val.headD 0 ≠ 0 := fun h => hconnection ((headD_eq_zero_iff _).mp h)
  refine ⟨_, rfl, ?_⟩
  have hdflt : getdfltClass envClass (buffers a).cls (buffers a).connection = [] := by
    have hnone : ¬a.cls.val.headD 0 ≠ 0 := not_not.mpr hhead
    have hnamed : nonempty (some a.connection) = true := decide_eq_true hname
    simp only [getdfltClass, buffers, if_neg hnone]
    exact if_pos hnamed
  rw [hdflt]
  exact CharArray.cstr_set_strncpy_full a.cls [] (by decide)

/-! ### The row that is granted -/

/-- A record that the decoder filled: one of the first `MAXNCONNECTIONS` of a
reply, and its names are those asked for. -/
def Filled (h : History) (conname conclass : List Byte) : Prop :=
  ∃ connection cls host, ∃ replies : List Reply,
    ⟨.obtainStatus connection cls host, replies⟩ ∈ h ∧ ∃ reply ∈ replies,
      ∃ j < maxNConnections, (j : ℤ) < atoi reply.numconnections.val ∧
        conname = (reply.stat j).conname ∧ conclass = (reply.stat j).conclass

/-- Where no reply announces more than that, every record is filled. -/
theorem FromStatus.filled {h : History} {conname conclass : List Byte}
    (hf : FromStatus h conname conclass)
    (hcount : ∀ reply, Got h reply → atoi reply.numconnections.val ≤ maxNConnections) :
    Filled h conname conclass := by
  obtain ⟨connection, cls, host, replies, hmem, reply, hreply, j, hj, hnames⟩ := hf
  refine ⟨connection, cls, host, replies, hmem, reply, hreply, j, ?_, hj, hnames⟩
  have hle := hcount reply ⟨connection, cls, host, replies, hmem, hreply⟩
  omega

/-- The arguments ask for a connection under the names given, and not for the
second port of one that the user has. -/
def Ordinary (ss : List Setting) : Prop :=
  Direct (buffers (ss.foldl Args.set Args.start)) ∨
    (ss.foldl Args.set Args.start).getserial2 ≠ 1

/-- The names that are given fit their fields. -/
def Fits (ss : List Setting) : Prop :=
  (connectionGiven ss).length < maxConnectionName ∧ (classGiven ss).length < maxClassName

/-- A run of `xinu-console` with the arguments `argv` and what a daemon makes of a
make request of it. -/
structure Invocation (argv : List (List Byte)) where
  ss : List Setting
  parsed : settings argv = some ss
  envClass : Option (List Byte)
  user : List Byte
  stackClass : CharArray maxClassName
  history : History
  result : ℤ × Buffers
  called : Prog.Runs (MakeConnection.makeConnection envClass user stackClass
    (buffers (ss.foldl Args.set Args.start)) (ss.foldl Args.set Args.start).getserial2) history result
  before : History
  conname : List Byte
  conclass : List Byte
  host : List Byte
  answer : Option Reply
  behind : History
  makes : history = before ++ ⟨.reqGeneric conname conclass host reqMakeConnection, answer⟩ :: behind
  -- status replies come from daemons, each with a table of its own
  informed : ∀ connection cls server, ∀ replies : List Reply,
    ⟨.obtainStatus connection cls server, replies⟩ ∈ before → ∀ reply ∈ replies, ∃ l : Listing,
      Decodes l reply ∧ l.config.length ≤ maxConnections ∧
        ∃ stack, l.req = initRequest stack user reqStatus connection cls
  stack : Request
  hostsCtl : Addr → List Byte → Bool
  daemon : Daemon
  psa : Addr
  junk : Reply
  pid : ℤ
  now : ℤ

namespace Invocation

variable {argv : List (List Byte)}

def args (r : Invocation argv) : Args := r.ss.foldl Args.set Args.start

/-- The make request. -/
def req (r : Invocation argv) : Request :=
  initRequest r.stack r.user reqMakeConnection (some r.conname) (some r.conclass)

/-- In a search the record picked is one that the decoder filled. -/
def PicksFilled (r : Invocation argv) : Prop :=
  ¬Direct (buffers r.args) → Filled r.before r.conname r.conclass

def AsksByName (r : Invocation argv) : Prop := Ordinary r.ss

/-- The daemon grants the row number `i`. -/
def Grants (r : Invocation argv) (i : ℕ) : Prop :=
  ∃ peer, Effect.fork r.pid i peer ∈
    (processRequest r.hostsCtl r.junk r.pid r.now r.daemon r.psa r.req).2

/-- A row that is granted has this connection and this class. -/
def ActsOn (r : Invocation argv) (conname conclass : List Byte) : Prop :=
  ∀ i, r.Grants i → ∃ row, r.daemon.config[i]? = some row ∧ row.conname = conname ∧
    row.conclass = conclass

/-- A row that is granted has the connection and the class that were given. -/
def ActsOnTarget (r : Invocation argv) : Prop :=
  ∀ i, r.Grants i → ∃ row, r.daemon.config[i]? = some row ∧
    (connectionGiven r.ss ≠ [] → row.conname = connectionGiven r.ss) ∧
    (classGiven r.ss ≠ [] → row.conclass = classGiven r.ss)

end Invocation

/-! ### The names asked for -/

/-- The filters of `Status` compare what is left of the names in the request. -/
theorem statusMatches_iff (req : Request) (row : Condata) :
    statusMatches req row = true ↔
      (cstr req.conname.val ≠ [] → row.conname = (cstr req.conname.val).take 16) ∧
        (cstr req.conclass.val ≠ [] → row.conclass = (cstr req.conclass.val).take 16) := by
  have hn : (cstr row.conname).take 16 = row.conname := by
    rw [cstr_of_not_mem row.conname_str.1]
    exact List.take_of_length_le row.conname_str.2.le
  have hc : (cstr row.conclass).take 16 = row.conclass := by
    rw [cstr_of_not_mem row.conclass_str.1]
    exact List.take_of_length_le row.conclass_str.2.le
  simp only [statusMatches, Bool.and_eq_true, Bool.or_eq_true, decide_eq_true_eq,
    headD_eq_zero_iff, strnequ_iff, maxConnectionName, maxClassName, hn, hc, or_iff_not_imp_left]
  exact and_congr (imp_congr_right fun _ => eq_comm) (imp_congr_right fun _ => eq_comm)

/-- A filled record of a status reply is that of a row which the request matches. -/
theorem exists_row_of_decodes {l : Listing} {reply : Reply} (hd : Decodes l reply)
    (hsize : l.config.length ≤ maxConnections) {j : ℕ} (h4 : j < maxNConnections)
    (hj : (j : ℤ) < atoi reply.numconnections.val) :
    ∃ row ∈ l.config, statusMatches l.req row = true ∧ (reply.stat j).conname = row.conname ∧
      (reply.stat j).conclass = row.conclass := by
  obtain ⟨hcount, hstat⟩ := rows_of_decodes hd hsize
  have hlt : j < (matching l.config l.req).length := by
    have := hj.trans_eq hcount
    omega
  obtain ⟨hmem, hmatches⟩ := List.mem_filter.mp (List.getElem_mem hlt)
  have hrecord := hstat j hlt h4
  exact ⟨_, hmem, hmatches, congrArg StatusreplyData.conname hrecord,
    congrArg StatusreplyData.conclass hrecord⟩

namespace Invocation

variable {argv : List (List Byte)}

/-- Either way the names asked for begin like those that were given. -/
theorem asked_names (r : Invocation argv) (hordinary : Ordinary r.ss) (hfilled : r.PicksFilled) :
    (connectionGiven r.ss ≠ [] →
      (cstr r.conname).take 15 = (connectionGiven r.ss).take 15) ∧
    (classGiven r.ss ≠ [] → (cstr r.conclass).take 15 = (classGiven r.ss).take 15) := by
  obtain ⟨hconnection, hcls⟩ := foldl_set_names r.ss
  by_cases hdirect : Direct (buffers (r.ss.foldl Args.set Args.start))
  · have hasked := r.called.called (makeConnection_direct r.envClass r.user r.stackClass hdirect _)
      r.makes
    obtain ⟨hn, hc⟩ := hasked _ _ _ rfl
    rw [hn, hc, hconnection, hcls, List.take_take, List.take_take]
    exact ⟨fun _ => rfl, fun _ => rfl⟩
  · -- the row asked for was listed for a status request with the names
    have hsearches := makeConnection_searches r.envClass r.user r.stackClass hdirect
      (hordinary.resolve_left hdirect)
    obtain ⟨connection, cls, server, replies, hmem, reply, hreply, j, h4, hj, hn, hc⟩ :=
      hfilled hdirect
    obtain ⟨l, hd, hsize, stack, hreq⟩ := r.informed _ _ _ _ hmem reply hreply
    obtain ⟨as, bs, hbefore⟩ := List.append_of_mem hmem
    have hmakes := r.makes
    rw [hbefore, List.append_assoc] at hmakes
    obtain ⟨rfl, rfl⟩ := (r.called.called hsearches hmakes).2 _ _ _ rfl
    obtain ⟨row, -, hmatches, hrn, hrc⟩ := exists_row_of_decodes hd hsize h4 hj
    obtain ⟨hname, hclass⟩ := (statusMatches_iff _ _).mp hmatches
    rw [hn, hc, hrn, hrc, cstr_of_not_mem row.conname_str.1, cstr_of_not_mem row.conclass_str.1]
    rw [hreq, cstr_initRequest_conname] at hname
    rw [hreq, cstr_initRequest_conclass] at hclass
    constructor
    · intro hgiven
      have hconn : (cstr ((Option.map Subtype.val
          (buffers (r.ss.foldl Args.set Args.start)).connection).getD [])).take 15 =
          (connectionGiven r.ss).take 15 := by
        show (cstr (r.ss.foldl Args.set Args.start).connection.val).take 15 = _
        rw [hconnection, List.take_take]
        rfl
      rw [hconn] at hname
      rw [hname (by simpa using hgiven), List.take_take, List.take_take]
      rfl
    · intro hgiven
      have hne : cstr (r.ss.foldl Args.set Args.start).cls.val ≠ [] := by
        rw [hcls]
        simpa using hgiven
      obtain ⟨cls', hlooked, hstr⟩ := classLookedFor_of_given r.envClass r.stackClass hne
      rw [hlooked, Option.getD_some, hstr, hcls, List.take_take, List.take_take] at hclass
      rw [hclass (by simpa using hgiven), List.take_take, List.take_take]
      rfl

/-- A row that is granted begins like the names given. -/
theorem granted_names (r : Invocation argv) (hordinary : Ordinary r.ss) (hfilled : r.PicksFilled)
    {i : ℕ} (hg : r.Grants i) :
    ∃ row, r.daemon.config[i]? = some row ∧
      (connectionGiven r.ss ≠ [] → row.conname = (connectionGiven r.ss).take 15) ∧
      (classGiven r.ss ≠ [] → row.conclass = (classGiven r.ss).take 15) := by
  obtain ⟨peer, hfork⟩ := hg
  have hmem : (r.pid, i) ∈ (processRequest r.hostsCtl r.junk r.pid r.now r.daemon r.psa
      r.req).2.filterMap Effect.forked := List.mem_filterMap.mpr ⟨_, hfork, rfl⟩
  cases processRequest_served r.hostsCtl r.junk r.pid r.now r.daemon r.psa r.req with
  | same _ hnone => exact absurd hmem (by simp [hnone])
  | touched _ _ _ _ _ _ _ _ hnone => exact absurd hmem (by simp [hnone])
  | made k row _ _ haddr _ _ _ hforked =>
      rw [hforked] at hmem
      obtain ⟨-, rfl⟩ := Prod.mk.inj (List.mem_singleton.mp hmem)
      obtain ⟨hname, hclass⟩ := r.asked_names hordinary hfilled
      obtain ⟨row', hrow', hmatches⟩ := getcondata_some haddr.1
      obtain rfl : row' = row := Option.some.inj (hrow'.symm.trans haddr.2)
      obtain ⟨hrn, hrc⟩ := (conMatches_initRequest r.stack r.user reqMakeConnection (some r.conname)
        (some r.conclass) row').mp hmatches
      refine ⟨row', hrow', fun hgiven => hrn.trans (hname hgiven), fun hgiven => ?_⟩
      have hne : (cstr r.conclass).take 15 ≠ [] := by
        rw [hclass hgiven]
        simpa using hgiven
      exact (hrc.resolve_left hne).trans (hclass hgiven)

end Invocation

/-! ### A row under the names that are left -/

/-- The beginning of a name, or some name where none is given. -/
def cutName (given other : List Byte) : List Byte := if given = [] then other else given.take 15

theorem cutName_ok {given other : List Byte} (hgiven : (0 : Byte) ∉ given)
    (hother : (0 : Byte) ∉ other ∧ other.length < 16) :
    (0 : Byte) ∉ cutName given other ∧ (cutName given other).length < 16 := by
  unfold cutName
  split
  · exact hother
  · refine ⟨fun hmem => hgiven (List.mem_of_mem_take hmem), ?_⟩
    rw [List.length_take]
    omega

theorem zero_not_mem_connectionGiven (ss : List Setting) : (0 : Byte) ∉ connectionGiven ss :=
  zero_not_mem_cstr _

theorem zero_not_mem_classGiven (ss : List Setting) : (0 : Byte) ∉ classGiven ss :=
  zero_not_mem_cstr _

/-- A free row under the names that are left of those given. -/
def lookalike (ss : List Setting) : Condata :=
  { argo with
    conname := cutName (connectionGiven ss) (text "argo")
    conclass := cutName (classGiven ss) defaultClassName
    conname_str := cutName_ok (zero_not_mem_connectionGiven ss) (by decide)
    conclass_str := cutName_ok (zero_not_mem_classGiven ss) (by decide) }

/-- A daemon whose only row that is. -/
def lookalikeDaemon (ss : List Setting) : Daemon :=
  ⟨false, false, CharArray.zero _, [lookalike ss]⟩

theorem take_cstr_cutName {given other : List Byte} (hgiven : (0 : Byte) ∉ given)
    (hother : (0 : Byte) ∉ other ∧ other.length < 16) :
    (cstr (cutName given other)).take 15 = cutName given other := by
  obtain ⟨hz, hlen⟩ := cutName_ok hgiven hother
  rw [cstr_of_not_mem hz]
  exact List.take_of_length_le (by omega)

namespace Invocation

variable {argv : List (List Byte)}

/-- With both names given these are what a granted row must have. -/
theorem actsOn_given_iff (r : Invocation argv) (hn : connectionGiven r.ss ≠ [])
    (hc : classGiven r.ss ≠ []) :
    r.ActsOn (connectionGiven r.ss) (classGiven r.ss) ↔ r.ActsOnTarget := by
  refine forall₂_congr fun i _ => exists_congr fun row => and_congr_right fun _ => ?_
  rw [forall_prop_of_true hn, forall_prop_of_true hc]

/-- The daemon grants its row to a request for what is left of the names. -/
theorem grants_lookalike (r : Invocation argv) {names : List Setting}
    (hdaemon : r.daemon = lookalikeDaemon names)
    (hhosts : r.hostsCtl = noWrappers) (hpid : 0 ≤ r.pid)
    (hn : (cstr r.conname).take 15 = (lookalike names).conname)
    (hc : (cstr r.conclass).take 15 = (lookalike names).conclass) : r.Grants 0 := by
  have hmatches : conMatches r.req.conname.val r.req.conclass.val (lookalike names) = true :=
    (conMatches_initRequest r.stack r.user reqMakeConnection (some r.conname) (some r.conclass)
      (lookalike names)).mpr ⟨hn.symm, .inr hc.symm⟩
  have haddr : Addresses (lookalikeDaemon names) r.req 0 (lookalike names) :=
    ⟨by simp [lookalikeDaemon, getcondata, hmatches], rfl⟩
  refine ⟨r.psa, ?_⟩
  rw [hdaemon, hhosts]
  exact fork_of_make ⟨rfl, rfl⟩ rfl haddr rfl hpid r.junk r.now

/-- One of the names of the row is not the one that was given. -/
theorem not_actsOnTarget (r : Invocation argv) (hdaemon : r.daemon = lookalikeDaemon r.ss)
    (hgrants : r.Grants 0) (hfits : ¬Fits r.ss) : ¬r.ActsOnTarget := by
  intro hacts
  obtain ⟨row, hrow, hn, hc⟩ := hacts 0 hgrants
  rw [hdaemon] at hrow
  obtain rfl : lookalike r.ss = row := Option.some.inj hrow
  have hlt := (lookalike r.ss).conname_str.2
  have hlt' := (lookalike r.ss).conclass_str.2
  refine hfits ⟨?_, ?_⟩
  · by_cases hgiven : connectionGiven r.ss = []
    · simp [hgiven]
    · rw [← hn hgiven]
      exact hlt
  · by_cases hgiven : classGiven r.ss = []
    · simp [hgiven]
    · rw [← hc hgiven]
      exact hlt'

end Invocation

/-- The status reply of that daemon, as the client has it. -/
theorem exists_reply (ss : List Setting) (req : Request)
    (hmatches : statusMatches req (lookalike ss) = true) :
    ∃ l : Listing, ∃ reply, Decodes l reply ∧ l.config.length ≤ maxConnections ∧ l.req = req ∧
      atoi reply.numconnections.val = 1 ∧ (reply.stat 0).active = 0 ∧
      (reply.stat 0).conname = (lookalike ss).conname ∧
      (reply.stat 0).conclass = (lookalike ss).conclass ∧
      (cstr reply.hostname.val).length < maxHostName := by
  let l : Listing := ⟨zeroReply, CharArray.zero _, [lookalike ss], req, 0⟩
  have hone : matching [lookalike ss] req = [lookalike ss] := by simp [matching, hmatches]
  have hlen : [lookalike ss].length ≤ maxConnections := show 1 ≤ maxConnections by decide
  have hfree : ElapsedInRange [lookalike ss] 0 := by
    intro row hrow hheld
    obtain rfl := List.mem_singleton.mp hrow
    exact absurd rfl hheld
  obtain ⟨reply, hd⟩ := exists_decodes l hlen hfree
  obtain ⟨hcount, hstat⟩ := rows_of_decodes hd hlen
  simp only [l, hone] at hcount hstat
  have hrecord := hstat 0 (by simp) (by decide)
  refine ⟨l, reply, hd, hlen, rfl, hcount, ?_, ?_, ?_, hostname_of_decodes hd⟩
  · exact congrArg StatusreplyData.active hrecord
  · exact congrArg StatusreplyData.conname hrecord
  · exact congrArg StatusreplyData.conclass hrecord

/-! ### A run that asks for that row -/

theorem exists_copyOut {n : ℕ} (dst : Option (CharArray n)) {src : List Byte}
    (hfit : (cstr src).length < n) : ∃ dst', copyOut dst src = pure dst' := by
  cases dst with
  | none => exact ⟨none, rfl⟩
  | some a => exact ⟨_, if_pos hfit⟩

/-- The row is asked for, granted, and its port called. -/
def rowAsked (host : List Byte) (stat : StatusreplyData) : History :=
  [⟨.reqGeneric stat.conname stat.conclass host reqMakeConnection, some zeroReply⟩,
    ⟨.connectTCP host (atoi (zeroReply.details.read 0 maxDetails)), (5 : ℤ)⟩]

theorem makeRow_runs (connection : Option (CharArray maxConnectionName))
    (cls : Option (CharArray maxClassName)) (host : List Byte) {stat : StatusreplyData}
    (hn : (cstr stat.conname).length < maxConnectionName)
    (hc : (cstr stat.conclass).length < maxClassName) :
    ∃ connection' cls', Prog.Runs (makeRow connection cls host stat) (rowAsked host stat)
      (5, connection', cls') := by
  obtain ⟨connection', hconnection⟩ := exists_copyOut connection hn
  obtain ⟨cls', hcls⟩ := exists_copyOut cls hc
  refine ⟨connection', cls', runs_call (Op.reqGeneric stat.conname stat.conclass host
    reqMakeConnection) (some zeroReply) ?_⟩
  dsimp only
  rw [hconnection, hcls]
  exact runs_call (Op.connectTCP host _) (5 : ℤ) (.ret _)

/-- A reply with one free row: the row is asked for, and its port is called. -/
theorem acquire_runs (b : Buffers) {reply : Reply} (hcount : atoi reply.numconnections.val = 1)
    (hfree : (reply.stat 0).active = 0)
    (hn : (cstr (reply.stat 0).conname).length < maxConnectionName)
    (hc : (cstr (reply.stat 0).conclass).length < maxClassName)
    (hhost : (cstr reply.hostname.val).length < maxHostName) :
    ∃ result, Prog.Runs (acquire b)
      ([⟨.obtainStatus (b.connection.map Subtype.val) (b.cls.map Subtype.val)
          (b.host.map Subtype.val), [reply]⟩, ⟨.rand, (0 : ℕ)⟩] ++
        rowAsked (cstr reply.hostname.val) (reply.stat 0)) result := by
  obtain ⟨connection', cls', hrow⟩ :=
    makeRow_runs b.connection b.cls (cstr reply.hostname.val) hn hc
  obtain ⟨host', hcopied⟩ := exists_copyOut b.host
    (show (cstr (cstr reply.hostname.val)).length < maxHostName by
      rwa [cstr_of_not_mem (zero_not_mem_cstr _)])
  have hindeces : indeces false reply (atoi reply.numconnections.val).toNat 0 = pure [0] := by
    rw [hcount]
    simp only [Int.toNat_one, indeces, candidate, hfree]
    rfl
  have hreq : reqTCPConnection b.connection b.cls (cstr reply.hostname.val) false (reply.stat 0) =
      makeRow b.connection b.cls (cstr reply.hostname.val) (reply.stat 0) := by
    rw [reqTCPConnection, if_neg (by simp [hfree]), if_neg (by simp)]
  have htry : Prog.Runs (tryRows false reply [0] 1 0 b)
      (rowAsked (cstr reply.hostname.val) (reply.stat 0) ++ [])
        (5, ⟨connection', cls', host'⟩) := by
    rw [tryRows]
    refine Prog.Runs.bind (hreq ▸ hrow) ?_
    dsimp only
    rw [if_pos (by norm_num), hcopied]
    exact .ret _
  have hget : Prog.Runs (getTCPConnection false [reply] b)
      (⟨.rand, (0 : ℕ)⟩ :: (rowAsked (cstr reply.hostname.val) (reply.stat 0) ++ [] ++ []))
      (5, ⟨connection', cls', host'⟩) := by
    rw [getTCPConnection, hindeces]
    refine runs_call Op.rand (0 : ℕ) ?_
    exact htry.bind (.ret _)
  have hsome : ¬totalAnswers [reply] ≤ 0 := by simp [totalAnswers, hcount]
  refine ⟨(5, ⟨connection', cls', host'⟩), ?_⟩
  refine runs_call (Op.obtainStatus ..) [reply] ?_
  dsimp only
  rw [if_neg hsome]
  exact hget.bind (.ret _)

theorem acquireFor_runs (k : Classes) (connection : Option (CharArray maxConnectionName))
    (host : Option (CharArray maxHostName)) {reply : Reply}
    (hcount : atoi reply.numconnections.val = 1) (hfree : (reply.stat 0).active = 0)
    (hn : (cstr (reply.stat 0).conname).length < maxConnectionName)
    (hc : (cstr (reply.stat 0).conclass).length < maxClassName)
    (hhost : (cstr reply.hostname.val).length < maxHostName) :
    ∃ result, Prog.Runs (acquireFor k connection host)
      ([⟨.obtainStatus (connection.map Subtype.val) (k.pointee.map Subtype.val)
          (host.map Subtype.val), [reply]⟩, ⟨.rand, (0 : ℕ)⟩] ++
        rowAsked (cstr reply.hostname.val) (reply.stat 0)) result := by
  obtain ⟨⟨fd, b⟩, hrun⟩ := acquire_runs ⟨connection, k.pointee, host⟩ hcount hfree hn hc hhost
  refine ⟨(fd, { b with cls := k.callerAfter b.cls }), ?_⟩
  have hcalled := hrun.bind (f := fun r : ℤ × Buffers =>
    (pure (r.1, { r.2 with cls := k.callerAfter r.2.cls }) :
    Client (ℤ × Buffers))) (.ret (fd, { b with cls := k.callerAfter b.cls }))
  rwa [List.append_nil] at hcalled

theorem makeConnection_direct_runs (envClass : Option (List Byte)) (user : List Byte)
    (stack : CharArray maxClassName) {a : Args} (hdirect : Direct (buffers a)) (getserial2 : ℤ) :
    Prog.Runs (MakeConnection.makeConnection envClass user stack (buffers a) getserial2)
      ([] ++ ⟨.reqGeneric a.connection.val a.cls.val (a.host.val.take maxHostName) reqMakeConnection,
        some zeroReply⟩ :: [⟨.connectTCP (a.host.val.take maxHostName)
          (atoi (zeroReply.details.read 0 maxDetails)), (5 : ℤ)⟩]) (5, buffers a) := by
  have hcalled : MakeConnection.makeConnection envClass user stack (buffers a) getserial2 = _ :=
    if_pos hdirect
  rw [hcalled]
  refine runs_call (Op.reqGeneric ..) (some zeroReply) ?_
  exact runs_call (Op.connectTCP ..) (5 : ℤ) (.ret _)

/-! ### Names that do not fit -/

section Misled

variable {argv : List (List Byte)} {ss : List Setting}

theorem cutName_given {given other : List Byte} (h : given ≠ []) : cutName given other = given.take 15 :=
  if_neg h

/-- In some run a daemon gives away its only row, which has what is left of the names. -/
def Granted (argv : List (List Byte)) (ss names : List Setting) : Prop :=
  ∃ r : Invocation argv, r.ss = ss ∧ r.daemon = lookalikeDaemon names ∧ r.PicksFilled ∧ r.Grants 0

theorem granted_of_runs (hss : settings argv = some ss) {names : List Setting}
    {before behind : History} {result : ℤ × Buffers}
    {conname conclass host : List Byte} {answer : Option Reply}
    (hcalled : Prog.Runs (MakeConnection.makeConnection none [] (CharArray.zero _)
      (buffers (ss.foldl Args.set Args.start)) (ss.foldl Args.set Args.start).getserial2)
      (before ++ ⟨.reqGeneric conname conclass host reqMakeConnection, answer⟩ :: behind) result)
    (hinformed : ∀ connection cls server, ∀ replies : List Reply,
      ⟨.obtainStatus connection cls server, replies⟩ ∈ before → ∀ reply ∈ replies, ∃ l : Listing,
        Decodes l reply ∧ l.config.length ≤ maxConnections ∧
          ∃ stack, l.req = initRequest stack [] reqStatus connection cls)
    (hfilled : ¬Direct (buffers (ss.foldl Args.set Args.start)) → Filled before conname conclass)
    (hn : (cstr conname).take 15 = (lookalike names).conname)
    (hc : (cstr conclass).take 15 = (lookalike names).conclass) : Granted argv ss names := by
  let r : Invocation argv :=
    { ss := ss, parsed := hss, envClass := none, user := [], stackClass := CharArray.zero _
      history := _, result := result, called := hcalled
      before := before, conname := conname, conclass := conclass, host := host, answer := answer
      behind := behind, makes := rfl, informed := hinformed
      stack := zeroRequest, hostsCtl := noWrappers, daemon := lookalikeDaemon names
      psa := sampleAddr, junk := zeroReply, pid := 1, now := 0 }
  exact ⟨r, rfl, rfl, hfilled, r.grants_lookalike rfl rfl Int.one_nonneg hn hc⟩

/-- The same where the row is found by a search. -/
theorem granted_of_acquired (hss : settings argv = some ss) {names : List Setting}
    {asked : History} {k : Classes} {b : Buffers} {cls : List Byte}
    (hmade : ∀ h result, Prog.Runs (acquireFor k b.connection b.host) h result →
      Prog.Runs (MakeConnection.makeConnection none [] (CharArray.zero _)
        (buffers (ss.foldl Args.set Args.start)) (ss.foldl Args.set Args.start).getserial2)
        (asked ++ h) result)
    (hasked : ∀ connection cls server, ∀ replies : List Reply,
      ⟨.obtainStatus connection cls server, replies⟩ ∈ asked → replies = [])
    (hlooked : k.pointee.map Subtype.val = some cls)
    (hmatches : statusMatches (initRequest zeroRequest [] reqStatus
      (b.connection.map Subtype.val) (some cls)) (lookalike names) = true) :
    Granted argv ss names := by
  obtain ⟨l, reply, hd, hsize, hreq, hcount, hactive, hn, hc, hhost⟩ :=
    exists_reply names _ hmatches
  have hn' : (cstr (reply.stat 0).conname).length < maxConnectionName := by
    rw [hn, cstr_of_not_mem (lookalike names).conname_str.1]
    exact (lookalike names).conname_str.2
  have hc' : (cstr (reply.stat 0).conclass).length < maxClassName := by
    rw [hc, cstr_of_not_mem (lookalike names).conclass_str.1]
    exact (lookalike names).conclass_str.2
  obtain ⟨result, hrun⟩ := acquireFor_runs k b.connection b.host hcount hactive hn' hc' hhost
  have hmakes := hmade _ _ hrun
  rw [← List.append_assoc] at hmakes
  refine granted_of_runs hss hmakes ?_ (fun _ => ?_) ?_ ?_
  · intro connection cls' server replies hmem reply' hreply
    rcases List.mem_append.mp hmem with hmem | hmem
    · rw [hasked _ _ _ _ hmem] at hreply
      exact absurd hreply List.not_mem_nil
    · rcases List.mem_cons.mp hmem with hstatus | hmem
      · obtain ⟨hop, hres⟩ := Answered.mk.inj hstatus
        obtain ⟨rfl, rfl, -⟩ := Op.obtainStatus.inj hop
        obtain rfl := eq_of_heq hres
        obtain rfl := List.mem_singleton.mp hreply
        exact ⟨l, hd, hsize, zeroRequest, by rw [hreq, hlooked]⟩
      · exact absurd (congrArg Answered.op (List.mem_singleton.mp hmem)) (by simp)
  · exact ⟨_, _, _, [reply], List.mem_append_right _ List.mem_cons_self, reply,
      List.mem_cons_self, 0, by decide, by omega, rfl, rfl⟩
  · rw [hn]
    exact take_cstr_cutName (zero_not_mem_connectionGiven names) (by decide)
  · rw [hc]
    exact take_cstr_cutName (zero_not_mem_classGiven names) (by decide)

/-- All three names are given. -/
theorem granted_direct (hss : settings argv = some ss)
    (hdirect : Direct (buffers (ss.foldl Args.set Args.start))) : Granted argv ss ss := by
  obtain ⟨hconnection, hcls⟩ := foldl_set_names ss
  generalize ha : ss.foldl Args.set Args.start = a at hdirect hconnection hcls
  have hn : connectionGiven ss ≠ [] := by
    intro hnone
    have hhead : a.connection.val.headD 0 ≠ 0 := by simpa [nonempty, buffers] using hdirect.2.1
    exact hhead ((headD_eq_zero_iff _).mpr (by simp [hconnection, hnone]))
  have hc : classGiven ss ≠ [] := by
    intro hnone
    have hhead : a.cls.val.headD 0 ≠ 0 := by simpa [nonempty, buffers] using hdirect.2.2
    exact hhead ((headD_eq_zero_iff _).mpr (by simp [hcls, hnone]))
  subst ha
  have hrun := makeConnection_direct_runs none [] (CharArray.zero _) hdirect
    (ss.foldl Args.set Args.start).getserial2
  refine granted_of_runs hss hrun (by simp) (fun hsearch => absurd hdirect hsearch) ?_ ?_
  · rw [hconnection, List.take_take]
    exact (cutName_given hn).symm
  · rw [hcls, List.take_take]
    exact (cutName_given hc).symm

/-- The request of a search finds the row. -/
theorem statusMatches_lookalike (stack : Request) (user : List Byte) {connection cls : List Byte}
    (hconnection : cstr connection = (connectionGiven ss).take 15)
    (hcls : cstr cls = (classGiven ss).take 15) :
    statusMatches (initRequest stack user reqStatus (some connection) (some cls))
      (lookalike ss) = true := by
  rw [statusMatches_iff, cstr_initRequest_conname, cstr_initRequest_conclass]
  simp only [Option.getD_some, hconnection, hcls, List.take_take, lookalike, cutName]
  constructor
  · intro hgiven
    rw [if_neg fun hnone => hgiven (by simp [hnone])]
    rfl
  · intro hgiven
    rw [if_neg fun hnone => hgiven (by simp [hnone])]
    rfl

/-- One of the names is missing, and the row is found by a search. -/
theorem granted_search (hss : settings argv = some ss)
    (hdirect : ¬Direct (buffers (ss.foldl Args.set Args.start)))
    (hfirst : (ss.foldl Args.set Args.start).getserial2 ≠ 1)
    (hnamed : connectionGiven ss ≠ [] ∨ classGiven ss ≠ []) : Granted argv ss ss := by
  obtain ⟨hconnection, hcls⟩ := foldl_set_names ss
  generalize ha : ss.foldl Args.set Args.start = a at hdirect hfirst hconnection hcls
  obtain ⟨cls, hlooked, hstr⟩ : ∃ cls, classLookedFor none (CharArray.zero _) a = some cls ∧
      cstr cls = (classGiven ss).take 15 := by
    by_cases hc : classGiven ss = []
    · rw [hc, List.take_nil] at hcls ⊢
      refine classLookedFor_of_unnamed none _ hcls fun hnone => ?_
      rw [hconnection, List.take_eq_nil_iff] at hnone
      exact hnone.elim (by norm_num) (hnamed.resolve_right (not_not.mpr hc))
    · have hne : cstr a.cls.val ≠ [] := by simpa [hcls] using hc
      obtain ⟨cls, hlooked, hstr⟩ := classLookedFor_of_given none (CharArray.zero _) hne
      refine ⟨cls, hlooked, hstr.trans ?_⟩
      rw [hcls, List.take_take]
      rfl
  have hmade := makeConnection_of_not_direct none [] (CharArray.zero _) hdirect hfirst
  subst ha
  have hruns : ∀ h result, Prog.Runs (acquireFor
      (defaultClass none (CharArray.zero _) (buffers (ss.foldl Args.set Args.start)))
      (buffers (ss.foldl Args.set Args.start)).connection
      (buffers (ss.foldl Args.set Args.start)).host) h result →
      Prog.Runs (MakeConnection.makeConnection none [] (CharArray.zero _)
        (buffers (ss.foldl Args.set Args.start)) (ss.foldl Args.set Args.start).getserial2)
        ([] ++ h) result := by
    intro h result hrun
    rw [hmade]
    exact hrun
  exact granted_of_acquired hss hruns (fun _ _ _ _ hmem => absurd hmem List.not_mem_nil) hlooked
    (statusMatches_lookalike zeroRequest [] hconnection hstr)

/-- The search for the user's second port has no primaries to go by, and any row
of the default class will do. -/
theorem granted_second (hss : settings argv = some ss)
    (hdirect : ¬Direct (buffers (ss.foldl Args.set Args.start)))
    (hsecond : (ss.foldl Args.set Args.start).getserial2 = 1) (hnone : connectionGiven ss = []) :
    Granted argv ss [] := by
  obtain ⟨hconnection, -⟩ := foldl_set_names ss
  rw [hnone, List.take_nil] at hconnection
  generalize ha : ss.foldl Args.set Args.start = a at hdirect hsecond hconnection
  let k : Classes := defaultClass none (CharArray.zero _) (buffers a)
  let dflt : CharArray maxClassName :=
    ((CharArray.zero maxClassName).strncpy defaultClassName maxClassName).strncpy defaultClassName
      maxClassName
  have hclass : (lookalike []).conclass = ((cstr (((CharArray.zero maxClassName).strncpy
      defaultClassName maxClassName).strncpy defaultClassName maxClassName).val).take 15).take 16 := by
    decide
  have hruns : ∀ h result, Prog.Runs (acquireFor { k with dclass := dflt, atLocal := true }
      (buffers a).connection (buffers a).host) h result →
      Prog.Runs (MakeConnection.makeConnection none [] (CharArray.zero _) (buffers a)
        a.getserial2) ([⟨.obtainStatus none (some
          ((CharArray.zero maxClassName).strncpy defaultClassName maxClassName).val)
          ((buffers a).host.map Subtype.val), ([] : List Reply)⟩] ++ h) result := by
    intro h result hrun
    have hsearch : MakeConnection.makeConnection none [] (CharArray.zero _) (buffers a)
        a.getserial2 = makeConnection.search none [] (CharArray.zero _) (buffers a) a.getserial2 :=
      if_neg hdirect
    rw [hsearch, makeConnection.search, if_pos hsecond]
    exact runs_call (Op.obtainStatus ..) ([] : List Reply) hrun
  subst ha
  refine granted_of_acquired hss hruns ?_ rfl ?_
  · intro connection cls server replies hmem
    obtain ⟨hop, hres⟩ := Answered.mk.inj (List.mem_singleton.mp hmem)
    obtain ⟨rfl, rfl, rfl⟩ := Op.obtainStatus.inj hop
    exact eq_of_heq hres
  · rw [statusMatches_iff, cstr_initRequest_conname, cstr_initRequest_conclass]
    constructor
    · intro hgiven
      have hempty : (cstr (((buffers (ss.foldl Args.set Args.start)).connection.map
          Subtype.val).getD [])).take 15 = [] := by
        rw [List.take_eq_nil_iff]
        exact .inr hconnection
      exact absurd hempty hgiven
    · intro _
      exact hclass

theorem granted_of_ordinary (hss : settings argv = some ss) (hordinary : Ordinary ss)
    (hnamed : connectionGiven ss ≠ [] ∨ classGiven ss ≠ []) : Granted argv ss ss := by
  by_cases hdirect : Direct (buffers (ss.foldl Args.set Args.start))
  · exact granted_direct hss hdirect
  · exact granted_search hss hdirect (hordinary.resolve_left hdirect) hnamed

/-- A name that does not fit, and someone else's row is granted. -/
theorem exists_misled (hss : settings argv = some ss) (hordinary : Ordinary ss) (hfits : ¬Fits ss) :
    ∃ r : Invocation argv, r.AsksByName ∧ r.PicksFilled ∧ ¬r.ActsOnTarget := by
  have hnamed : connectionGiven ss ≠ [] ∨ classGiven ss ≠ [] := by
    by_contra hnone
    rw [not_or, not_not, not_not] at hnone
    exact hfits (by simp [Fits, hnone])
  obtain ⟨r, rfl, hdaemon, hfilled, hgrants⟩ := granted_of_ordinary hss hordinary hnamed
  exact ⟨r, hordinary, hfilled, r.not_actsOnTarget hdaemon hgrants hfits⟩

end Misled

theorem actsOnTarget_iff (argv : List (List Byte)) :
    (∀ r : Invocation argv, r.AsksByName → r.PicksFilled → r.ActsOnTarget) ↔
      ∀ ss, settings argv = some ss → Ordinary ss → Fits ss := by
  constructor
  · intro hacts ss hss hordinary
    by_contra hfits
    obtain ⟨r, hasks, hfilled, hmisled⟩ := exists_misled hss hordinary hfits
    exact hmisled (hacts r hasks hfilled)
  · intro hfits r hasks hfilled i hgrants
    obtain ⟨hconnection, hcls⟩ := hfits r.ss r.parsed hasks
    obtain ⟨row, hrow, hn, hc⟩ := r.granted_names hasks hfilled hgrants
    rw [List.take_of_length_le (Nat.le_of_lt_succ hconnection)] at hn
    rw [List.take_of_length_le (Nat.le_of_lt_succ hcls)] at hc
    exact ⟨row, hrow, hn, hc⟩

/-! ### The programs that `subconnect` starts -/

/-- What `subconnect` makes of this connection is an option to the program. -/
def IsOption (connection : List Byte) : Prop :=
  connection.headD 0 = 45 ∧ connection.tail.headD 0 ∈ text "tf2"

theorem text_tf2 : text "tf2" = [116, 102, 50] := by decide

section Subconnect

variable {connection host : List Byte} {p : List Byte × List Byte}

theorem subconnects_spec : ∀ p ∈ subconnects, cstr p.1 = p.1 ∧ p.1 ≠ [] ∧
    p.1.length < maxClassName ∧ (0 : Byte) ∉ p.2 ∧ p.2.length = 3 ∧ p.2.headD 0 = 45 ∧
      settings [p.2] = none := by
  decide

/-- The program gets the extended name. -/
theorem settings_subconnect_named (hp : p ∈ subconnects) (hname : connection.headD 0 ≠ 45)
    (hsome : cstr connection ≠ []) :
    ∃ ss, settings (subconnectArgs connection p.1 p.2 host) = some ss ∧ Ordinary ss ∧
      connectionGiven ss = cstr connection ++ p.2 ∧ classGiven ss = p.1 := by
  obtain ⟨hcls, -, -, hext, -⟩ := subconnects_spec p hp
  have hcon : (0 : Byte) ∉ cstr connection ++ p.2 := by
    rw [List.mem_append, not_or]
    exact ⟨zero_not_mem_cstr _, hext⟩
  have hhead : (cstr connection ++ p.2).headD 0 ≠ 45 := by
    cases connection with
    | nil => exact absurd rfl hsome
    | cons b connection =>
        have hb : b ≠ 0 := fun h0 => hsome (by simp [h0])
        simpa [cstr, hb] using hname
  let ss : List Setting :=
    [.transparent, .flush, .cls p.1, .server host, .connection (cstr connection ++ p.2)]
  refine ⟨ss, ?_, .inr ?_, cstr_of_not_mem hcon, hcls⟩
  · rw [settings_subconnectArgs, settings_connection hhead]
    rfl
  · simp [ss, Args.set, Args.start]

/-- The connection begins with a hyphen, and the program takes what it gets for
an option: without one of these letters it ends at once. -/
theorem settings_subconnect_hyphen (hp : p ∈ subconnects) (hname : connection.headD 0 = 45) :
    settings (subconnectArgs connection p.1 p.2 host) =
      (if connection.tail.headD 0 = 116 then some [.transparent]
        else if connection.tail.headD 0 = 102 then some [.flush]
        else if connection.tail.headD 0 = 50 then some [.second]
        else none).map ([.transparent, .flush, .cls p.1, .server host] ++ ·) := by
  obtain ⟨-, -, -, -, -, hext, -⟩ := subconnects_spec p hp
  cases connection with
  | nil => exact absurd hname (by decide)
  | cons b rest =>
      obtain rfl : b = 45 := hname
      have hcons : cstr (45 :: rest) = 45 :: cstr rest := cstr_cons_of_ne (by decide) rest
      rw [settings_subconnectArgs, hcons, List.cons_append, settings_hyphen rfl, List.tail_cons,
        List.tail_cons]
      cases rest with
      | nil => rw [cstr_nil, List.nil_append, hext]; rfl
      | cons c rest =>
          by_cases hc : c = 0
          · subst hc
            rw [cstr_zero_cons, List.nil_append, hext]
            rfl
          · rw [cstr_cons_of_ne hc]
            rfl

/-- Some free row of the class that the power command is for is granted, or with
the letter 2 one of the default class. -/
theorem exists_option_misled (hp : p ∈ subconnects) (hoption : IsOption connection) :
    ∃ r : Invocation (subconnectArgs connection p.1 p.2 host),
      r.PicksFilled ∧ ¬r.ActsOn (cstr connection ++ p.2) p.1 := by
  obtain ⟨hcls, hclsne, -⟩ := subconnects_spec p hp
  obtain ⟨hname, hletter⟩ := hoption
  have hsettings := @settings_subconnect_hyphen connection host p hp hname
  -- the option leaves the connection empty
  have hgranted : ∃ ss names, Granted (subconnectArgs connection p.1 p.2 host) ss names ∧
      connectionGiven names = [] := by
    have hclass : ∀ s : Setting, s.connection? = none → s.cls? = none →
        connectionGiven ([.transparent, .flush, .cls p.1, .server host] ++ [s]) = [] ∧
          classGiven ([.transparent, .flush, .cls p.1, .server host] ++ [s]) ≠ [] := by
      intro s hs hs'
      rw [connectionGiven_snoc, classGiven_snoc, hs, hs']
      exact ⟨rfl, fun hempty => hclsne (hcls.symm.trans hempty)⟩
    have hundirect : ∀ ss, connectionGiven ss = [] →
        ¬Direct (buffers (ss.foldl Args.set Args.start)) := by
      intro ss hnone hdirect
      have hempty := (foldl_set_names ss).1
      rw [hnone, List.take_nil] at hempty
      have hhead : (ss.foldl Args.set Args.start).connection.val.headD 0 ≠ 0 := by
        simpa [nonempty, buffers] using hdirect.2.1
      exact hhead ((headD_eq_zero_iff _).mpr hempty)
    simp only [text_tf2, List.mem_cons, List.not_mem_nil, or_false] at hletter
    rcases hletter with hletter | hletter | hletter
    · rw [hletter] at hsettings
      obtain ⟨hnone, hc⟩ := hclass .transparent rfl rfl
      exact ⟨_, _, granted_search hsettings (hundirect _ hnone) (by simp [Args.set, Args.start])
        (.inr hc), hnone⟩
    · rw [hletter] at hsettings
      obtain ⟨hnone, hc⟩ := hclass .flush rfl rfl
      exact ⟨_, _, granted_search hsettings (hundirect _ hnone) (by simp [Args.set, Args.start])
        (.inr hc), hnone⟩
    · rw [hletter] at hsettings
      obtain ⟨hnone, -⟩ := hclass .second rfl rfl
      exact ⟨_, _, granted_second hsettings (hundirect _ hnone) (by simp [Args.set]) hnone, rfl⟩
  obtain ⟨ss, names, ⟨r, -, hdaemon, hfilled, hgrants⟩, hnone⟩ := hgranted
  refine ⟨r, hfilled, fun hacts => ?_⟩
  obtain ⟨row, hrow, hn, -⟩ := hacts 0 hgrants
  rw [hdaemon] at hrow
  obtain rfl : lookalike names = row := Option.some.inj hrow
  -- its name does not begin with a hyphen
  have hargo : (lookalike names).conname = text "argo" := if_pos hnone
  rw [hargo] at hn
  cases connection with
  | nil => exact absurd hname (by decide)
  | cons b rest =>
      obtain rfl : b = 45 := hname
      rw [cstr_cons_of_ne (by decide) rest, List.cons_append] at hn
      have hhead : (97 : Byte) = 45 := congrArg (List.headD · 0) hn
      exact absurd hhead (by decide)

/-- The program's row has the names that `subconnect` put together exactly if
they fit and are no option. -/
theorem subconnect_acted_on_iff (hp : p ∈ subconnects) :
    (∀ r : Invocation (subconnectArgs connection p.1 p.2 host),
      r.PicksFilled → r.ActsOn (cstr connection ++ p.2) p.1) ↔
      (connection.headD 0 ≠ 45 → (cstr connection).length ≤ 12) ∧ ¬IsOption connection := by
  obtain ⟨-, hclsne, hclslen, -, hextlen, -, hnone⟩ := subconnects_spec p hp
  by_cases hname : connection.headD 0 = 45
  · rw [forall_prop_of_false (not_not.mpr hname), true_and]
    constructor
    · intro hacts hoption
      obtain ⟨r, hfilled, hmisled⟩ := exists_option_misled hp hoption
      exact hmisled (hacts r hfilled)
    · intro hoption r
      have hparsed := r.parsed
      rw [settings_subconnect_hyphen hp hname] at hparsed
      simp only [IsOption, hname, true_and, text_tf2, List.mem_cons, List.not_mem_nil, or_false,
        not_or] at hoption
      rw [if_neg hoption.1, if_neg hoption.2.1, if_neg hoption.2.2] at hparsed
      exact absurd hparsed (by simp)
  have hnoption : ¬IsOption connection := fun h => hname h.1
  rw [forall_prop_of_true hname, and_iff_left hnoption]
  by_cases hsome : cstr connection = []
  · refine iff_of_true (fun r => ?_) (by simp [hsome])
    have hparsed := r.parsed
    rw [settings_subconnectArgs, hsome, List.nil_append, hnone] at hparsed
    exact absurd hparsed (by simp)
  obtain ⟨ss, hss, hordinary, hn, hc⟩ := @settings_subconnect_named connection host p hp hname hsome
  have hgiven : connectionGiven ss ≠ [] := by simp [hn, hsome]
  have hfits : Fits ss ↔ (cstr connection).length ≤ 12 := by
    rw [Fits, hn, hc, List.length_append, hextlen, and_iff_left hclslen, maxConnectionName]
    omega
  rw [← hfits]
  have hacts := actsOnTarget_iff (subconnectArgs connection p.1 p.2 host)
  simp only [hss, Option.some.injEq, forall_eq', hordinary, forall_true_left] at hacts
  rw [← hacts]
  refine forall_congr' fun r => ?_
  obtain rfl : ss = r.ss := Option.some.inj (hss.symm.trans r.parsed)
  have hasks : r.AsksByName := hordinary
  have hacted := r.actsOn_given_iff hgiven (hc.symm ▸ hclsne)
  rw [hn, hc] at hacted
  rw [forall_prop_of_true hasks, hacted]

end Subconnect

/-- **The row that is granted has the names that were given**, whatever the
daemon's table, exactly where the names fit their fields: a longer connection or
class is cut and asked for all the same. From the power commands of a session
the connection has room for the extension only up to twelve characters, and one
that reads as an option gets any row. -/
theorem target_acted_on_iff (argv : List (List Byte)) :
    ((∀ r : Invocation argv, r.AsksByName → r.PicksFilled → r.ActsOnTarget) ↔
      ∀ ss, settings argv = some ss → Ordinary ss → Fits ss) ∧
    ∀ p ∈ subconnects, ∀ connection host : List Byte,
      ((∀ r : Invocation (subconnectArgs connection p.1 p.2 host),
        r.PicksFilled → r.ActsOn (cstr connection ++ p.2) p.1) ↔
        (connection.headD 0 ≠ 45 → (cstr connection).length ≤ 12) ∧ ¬IsOption connection) :=
  ⟨actsOnTarget_iff argv, fun _ hp _ _ => subconnect_acted_on_iff hp⟩

/-- All three names are given and fit, and the row that is granted has them. -/
theorem target_acted_on_argo :
    ∃ r : Invocation [text "-s", text "xinu", text "-c", text "mips", text "argo"],
      r.Grants 0 ∧ r.ActsOnTarget := by
  have hparsed : settings [text "-s", text "xinu", text "-c", text "mips", text "argo"] =
      some [.server (text "xinu"), .cls (text "mips"), .connection (text "argo")] := by decide
  have hdirect : Direct (buffers (List.foldl Args.set Args.start [.server (text "xinu"),
      .cls (text "mips"), .connection (text "argo")])) := by
    show _ = true ∧ _ = true ∧ _ = true
    decide
  obtain ⟨r, hss, -, hfilled, hgrants⟩ := granted_direct hparsed hdirect
  have hasks : r.AsksByName := .inl (by rw [hss]; exact hdirect)
  refine ⟨r, hgrants, (target_acted_on_iff _).1.mpr (fun ss hss' _ => ?_) r hasks hfilled⟩
  obtain rfl := Option.some.inj (hparsed.symm.trans hss')
  exact ⟨by decide, by decide⟩

/-- A name of seventeen bytes, and the row under its first fifteen is granted. -/
theorem long_name_misled :
    ∃ r : Invocation [text "-s", text "xinu", text "-c", text "mips", text "abcdefghijklmnopq"],
      r.AsksByName ∧ r.PicksFilled ∧ r.Grants 0 ∧ ¬r.ActsOnTarget ∧
        ∃ row, r.daemon.config = [row] ∧ row.conname = text "abcdefghijklmno" := by
  have hdirect : Direct (buffers (List.foldl Args.set Args.start [.server (text "xinu"),
      .cls (text "mips"), .connection (text "abcdefghijklmnopq")])) := by
    show _ = true ∧ _ = true ∧ _ = true
    decide
  obtain ⟨r, hss, hdaemon, hfilled, hgrants⟩ := granted_direct
    (show settings [text "-s", text "xinu", text "-c", text "mips", text "abcdefghijklmnopq"] = _ by
      decide) hdirect
  refine ⟨r, .inl (by rw [hss]; exact hdirect), hfilled, hgrants,
    r.not_actsOnTarget (by rw [hdaemon, hss]) hgrants ?_, _, by rw [hdaemon]; rfl, ?_⟩
  · rw [hss]
    exact fun h => absurd h.1 (by decide)
  · decide

end XinuConsole.Target
