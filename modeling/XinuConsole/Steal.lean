import XinuConsole.Reservation
import XinuConsole.BreakConnection

/-!
Stealing a connection.

A thief breaks the session on a row, sleeps half a millisecond and asks for the
row. Meanwhile the killed child terminates, and the daemon collects it before it
serves the next request. Nothing orders the child's death and the thief's second
request. `steal_granted_iff` says which order the thief needs.
-/

namespace XinuConsole.MakeConnection

open Lib ConnectUtils

/-! ### What the thief asks -/

/-- The calls of a stealing `reqTCPConnection`, by their number. -/
def StealCall (host : List Byte) (stat : StatusreplyData) (h : History) (op : Op) : Prop :=
  (h.length = 0 → op = .reqGeneric stat.conname stat.conclass host reqBreakConnection ∨
      op = .undefined) ∧
    (h.length = 1 → op = .usleep 500) ∧
    (h.length = 2 → op = .reqGeneric stat.conname stat.conclass host reqMakeConnection)

theorem stealCall_of_length {host : List Byte} {stat : StatusreplyData} {h : History}
    (hlen : 3 ≤ h.length) (op : Op) : StealCall host stat h op :=
  ⟨fun _ => by omega, fun _ => by omega, fun _ => by omega⟩

theorem breakRow_steals (host : List Byte) (stat : StatusreplyData) :
    Prog.wp (StealCall host stat) (breakRow host stat) (fun h go => go = true → h.length = 2) [] := by
  unfold breakRow
  cases getMinutes stat.contime with
  | none => simp [StealCall]
  | some minutes =>
      dsimp only
      split
      · simp
      · simp only [Prog.wp_bind, wp_reqGeneric]
        refine ⟨by simp [StealCall], fun r => ?_⟩
        cases r with
        | none => simp
        | some reply =>
            simp only [Prog.wp_bind, wp_usleep]
            exact ⟨by simp [StealCall], fun _ => by simp⟩

theorem makeRow_steals (connection : Option (CharArray maxConnectionName))
    (cls : Option (CharArray maxClassName)) (host : List Byte) (stat : StatusreplyData) {h : History}
    (hlen : h.length = 2) :
    Prog.wp (StealCall host stat) (makeRow connection cls host stat) (fun _ _ => True) h := by
  simp only [makeRow, Prog.wp_bind, wp_reqGeneric]
  refine ⟨⟨by simp [hlen], by simp [hlen], fun _ => rfl⟩, fun r => ?_⟩
  cases r with
  | none => trivial
  | some reply =>
      simp only [Prog.wp_bind]
      apply copyOut_spec (stealCall_of_length (by simp [hlen]) _)
      intro connection' _ _
      apply copyOut_spec (stealCall_of_length (by simp [hlen]) _)
      intro cls' _ _
      simp only [wp_connectTCP, Prog.wp_pure, implies_true, and_true]
      exact stealCall_of_length (by simp [hlen]) _

theorem reqTCPConnection_steals (connection : Option (CharArray maxConnectionName))
    (cls : Option (CharArray maxClassName)) (host : List Byte) (stat : StatusreplyData) :
    Prog.wp (StealCall host stat) (reqTCPConnection connection cls host true stat)
      (fun _ _ => True) [] := by
  unfold reqTCPConnection
  split
  · trivial
  · rw [if_pos rfl, Prog.wp_bind]
    refine Prog.wp_mono (fun h go _ hgo => ?_) (breakRow_steals host stat)
    split
    · next hbroken => exact makeRow_steals connection cls host stat (hgo hbroken)
    · trivial

/-- A thief that goes on after the break asks for the row it broke. -/
theorem steal_ops {connection : Option (CharArray maxConnectionName)}
    {cls : Option (CharArray maxClassName)} {host : List Byte} {stat : StatusreplyData} {h : History}
    {rv : ℤ × Option (CharArray maxConnectionName) × Option (CharArray maxClassName)}
    (hcalled : Prog.Runs (reqTCPConnection connection cls host true stat) h rv)
    {first second third : Op} {rest : List Op}
    (hops : h.map Answered.op = first :: second :: third :: rest) :
    first = .reqGeneric stat.conname stat.conclass host reqBreakConnection ∧
      second = .usleep 500 ∧
      third = .reqGeneric stat.conname stat.conclass host reqMakeConnection := by
  have hsteals := reqTCPConnection_steals connection cls host stat
  obtain ⟨a, h₁, rfl, rfl, hops₁⟩ := List.map_eq_cons_iff.mp hops
  obtain ⟨b, h₂, rfl, rfl, hops₂⟩ := List.map_eq_cons_iff.mp hops₁
  obtain ⟨c, h₃, rfl, rfl, -⟩ := List.map_eq_cons_iff.mp hops₂
  have ha : StealCall host stat [] a.op := hcalled.called hsteals rfl
  have hb : StealCall host stat [a] b.op :=
    hcalled.called hsteals (List.singleton_append (x := a)).symm
  have hc : StealCall host stat [a, b] c.op :=
    hcalled.called hsteals (show a :: b :: c :: h₃ = [a, b] ++ c :: h₃ from rfl)
  refine ⟨(ha.1 rfl).resolve_right fun hundef => ?_, hb.2.1 rfl, hc.2.2 rfl⟩
  obtain ⟨op, res⟩ := a
  obtain rfl : op = .undefined := hundef
  exact res.elim

end XinuConsole.MakeConnection

namespace XinuConsole.Consoled

open Lib ConnectUtils MakeConnection Reservation

section Daemon

variable {hostsCtl : Addr → List Byte → Bool} {m m' : Machine}
  {labels : List (Event × List Effect)}

/-! ### Runs without requests -/

/-- No datagram reaches the daemon. -/
def Quiet (labels : List (Event × List Effect)) : Prop :=
  ∀ l ∈ labels, ∀ psa d, l.1 ≠ .datagram psa d

/-- No request is served. -/
def Unserved (labels : List (Event × List Effect)) : Prop :=
  ∀ l ∈ labels, ∀ junk pid now, l.1 ≠ .serve junk pid now

theorem Step.request_of_serve {junk : Reply} {pid now : ℤ} {fx : List Effect}
    (hs : Step hostsCtl m (.serve junk pid now, fx) m') :
    m.phase.request ≠ none ∧ m'.phase.request = none := by
  cases hs.cases with
  | received _ _ _ _ _ _ he => exact absurd he (by simp)
  | serve _ _ _ psa req r hphase => exact ⟨by simp [hphase, Phase.request], rfl⟩

/-- Without datagrams a daemon without a request serves none. -/
theorem Quiet.unserved (hquiet : Quiet labels) (hr : Run (Step hostsCtl) m labels m')
    (hnone : m.phase.request = none) : Unserved labels ∧ m'.phase.request = none := by
  induction hr with
  | nil => exact ⟨by simp [Unserved], hnone⟩
  | @cons m m₁ m' l labels hs hr ih =>
      have hl : ∀ psa d, l.1 ≠ .datagram psa d := hquiet l List.mem_cons_self
      have hnone₁ : m₁.phase.request = none := by
        rcases hs.request_cases with h | h | ⟨psa, d, he, -⟩
        · exact h
        · exact h.trans hnone
        · exact absurd he (hl psa d)
      obtain ⟨hrest, hend⟩ := ih (fun l hl => hquiet l (List.mem_cons_of_mem _ hl)) hnone₁
      refine ⟨fun l' hl' => ?_, hend⟩
      rcases List.mem_cons.mp hl' with rfl | hl'
      · rintro junk pid now he
        obtain ⟨e, fx⟩ := l'
        obtain rfl : e = .serve junk pid now := he
        exact hs.request_of_serve.1 hnone
      · exact hrest l' hl'

/-- A request that is still there was not served. -/
theorem Quiet.unserved_of_request (hquiet : Quiet labels) (hr : Run (Step hostsCtl) m labels m')
    (hsome : m'.phase.request ≠ none) : Unserved labels := by
  rintro ⟨e, fx⟩ hl junk pid now he
  obtain rfl : e = .serve junk pid now := he
  obtain ⟨as, bs, rfl⟩ := List.append_of_mem hl
  obtain ⟨t, -, hrest⟩ := hr.split
  cases hrest with
  | cons hs hrest =>
      refine hsome (Quiet.unserved (fun l hl => hquiet l ?_) hrest hs.request_of_serve.2).2
      simp [hl]

/-! ### The killed child -/

/-- Until it is collected a dead child keeps the daemon from serving. -/
theorem sweeps_for_dead {c : Child} (hr : Run (Step hostsCtl) m labels m') (hserve : Unserved labels)
    (hwait : ∀ l ∈ labels, l.1 ≠ .wait3 c.pid) (hc : c ∈ m.children) (hdead : c.dead = true)
    (hphase : ∀ psa req, m.phase ≠ .serving psa req) : ∀ psa req, m'.phase ≠ .serving psa req := by
  have hinv := hr.invariant_of_labels (I := fun _ => True)
    (J := fun m => c ∈ m.children ∧ ∀ psa req, m.phase ≠ .serving psa req)
    (P := fun l => (∀ junk pid now, l.1 ≠ .serve junk pid now) ∧ l.1 ≠ .wait3 c.pid)
    (fun _ _ _ _ _ => trivial) ?_ (fun l hl => ⟨hserve l hl, hwait l hl⟩) trivial ⟨hc, hphase⟩
  · exact hinv.2
  rintro t l t' - ⟨hct, hpt⟩ ⟨hl, hw⟩ hs
  cases hs.cases with
  | exits pid =>
      refine ⟨List.mem_map.mpr ⟨c, hct, ?_⟩, hpt⟩
      obtain ⟨_, _, _⟩ := c
      obtain rfl : _ = true := hdead
      simp [exitChild]
  | received => exact ⟨hct, by simp⟩
  | wait3 childpid =>
      refine ⟨List.mem_filter.mpr ⟨hct, ?_⟩, hpt⟩
      simp only [ne_eq, decide_not, Bool.not_eq_eq_eq_not, Bool.not_true, decide_eq_false_iff_not]
      rintro rfl
      exact hw rfl
  | noneDead pending _ halive => exact absurd hdead (by simp [halive c hct])
  | serve junk pid now => exact absurd rfl (hl junk pid now)

/-- The collection of a child frees its row. -/
theorem freed_of_wait3 {t t' : Machine} {p : ℤ} {fx : List Effect} {i : ℕ} {row : Condata}
    (hrow : t.config[i]? = some row) (hheld : row.conpid = p)
    (hs : Step hostsCtl t (.wait3 p, fx) t') :
    ∃ row', t'.config[i]? = some row' ∧ row'.conpid = badPid := by
  subst hheld
  have hrow : t.daemon.config[i]? = some row := hrow
  cases hs.cases with
  | received _ _ _ _ _ _ he => exact absurd he (by simp)
  | wait3 _ _ _ =>
      exact ⟨_, by simp [Machine.config, collectChild, hrow], (freeRow_self row).1⟩

/-- Where no request is served a row keeps its child or becomes free. -/
theorem kept_or_freed {i : ℕ} {row : Condata} (hrow : m.config[i]? = some row)
    (hr : Run (Step hostsCtl) m labels m') (hserve : Unserved labels) :
    ∃ row', m'.config[i]? = some row' ∧ (row'.conpid = row.conpid ∨ row'.conpid = badPid) := by
  refine hr.invariant_of_labels (I := fun _ => True)
    (J := fun t => ∃ r : Condata, t.config[i]? = some r ∧
      (r.conpid = row.conpid ∨ r.conpid = badPid))
    (P := fun l => ∀ junk pid now, l.1 ≠ .serve junk pid now) (fun _ _ _ _ _ => trivial)
    ?_ (fun l hl => hserve l hl) trivial ⟨row, hrow, .inl rfl⟩
  rintro t l t' - ⟨r, hr, hor⟩ hl hs
  obtain ⟨r', hr', hstep⟩ := hs.row hr
  cases hstep with
  | same => exact ⟨_, hr', hor⟩
  | freed => exact ⟨_, hr', .inr (freeRow_self _).1⟩
  | touched junk pid now => exact absurd rfl (hl junk pid now)
  | made junk pid now => exact absurd rfl (hl junk pid now)

/-- A row is free once its child was collected. -/
theorem freed_of_mem_wait3 {i : ℕ} {row : Condata} (hrow : m.config[i]? = some row)
    (hr : Run (Step hostsCtl) m labels m') (hserve : Unserved labels) {fx : List Effect}
    (hl : (.wait3 row.conpid, fx) ∈ labels) :
    ∃ row', m'.config[i]? = some row' ∧ row'.conpid = badPid := by
  obtain ⟨as, bs, rfl⟩ := List.append_of_mem hl
  have hserve' : Unserved ((Event.wait3 row.conpid, fx) :: bs) :=
    fun l hl => hserve l (List.mem_append_right _ hl)
  obtain ⟨t, hfirst, hrest⟩ := hr.split
  obtain ⟨r, hr, hpid | hfree⟩ :=
    kept_or_freed hrow hfirst fun l hl => hserve l (List.mem_append_left _ hl)
  · cases hrest with
    | cons hs hrest =>
        obtain ⟨row', hrow', hfree⟩ := freed_of_wait3 hr hpid hs
        exact free_of_run hrest (fun l hl => hserve' l (List.mem_cons_of_mem _ hl)) hrow' hfree
  · exact free_of_run hrest hserve' hr hfree

/-- At a point of the run before a request is about to be served, no child with
the number `p` is alive. -/
def DeadInTime (hostsCtl : Addr → List Byte → Bool) (m : Machine)
    (labels : List (Event × List Effect)) (m' : Machine) (p : ℤ) : Prop :=
  ∃ as bs t, labels = as ++ bs ∧ Run (Step hostsCtl) m as t ∧ Run (Step hostsCtl) t bs m' ∧
    (∀ psa req, t.phase ≠ .serving psa req) ∧ ∀ c ∈ t.children, c.pid = p → c.dead = true

/-- A held row is free when the next request is about to be served if and only if
its child was dead in time. -/
theorem free_iff_deadInTime (hown : Owned m) {i : ℕ} {row : Condata} (hrow : m.config[i]? = some row)
    (hheld : row.conpid ≠ badPid) (hr : Run (Step hostsCtl) m labels m') (hserve : Unserved labels)
    {psa : Addr} {req : Request} (hphase : m'.phase = .serving psa req) :
    (∃ row', m'.config[i]? = some row' ∧ row'.conpid = badPid) ↔
      DeadInTime hostsCtl m labels m' row.conpid := by
  have hsession : Session m i row.conpid row.userName := ⟨row, hrow, rfl, rfl⟩
  constructor
  · rintro ⟨row', hrow', hfree⟩
    by_cases hwait : ∀ l ∈ labels, l.1 ≠ .wait3 row.conpid
    · obtain ⟨row₁, hrow₁, hpid, -⟩ := hsession.run hheld hr hwait
      obtain rfl := Option.some.inj (hrow'.symm.trans hrow₁)
      exact absurd (hpid.symm.trans hfree) hheld
    · -- the child was collected, so it was dead in the sweep
      simp only [not_forall, not_not] at hwait
      obtain ⟨⟨e, fx⟩, hl, he⟩ := hwait
      obtain rfl : e = .wait3 row.conpid := he
      obtain ⟨as, bs, rfl⟩ := List.append_of_mem hl
      obtain ⟨t, hfirst, hrest⟩ := hr.split
      have hownt : Owned t := hfirst.invariant (fun _ _ _ => Owned.step) hown
      cases hrest with
      | cons hs hrest =>
          refine ⟨as, _, t, rfl, hfirst, .cons hs hrest, ?_⟩
          cases hs.cases with
          | received _ _ _ _ _ _ he => exact absurd he (by simp)
          | wait3 _ _ pending hsweep _ _ hdead =>
              refine ⟨fun psa req h => absurd (hsweep.symm.trans h) (by simp), fun c hc hpid => ?_⟩
              obtain ⟨c', hc', hpid', hdead'⟩ := hdead
              rw [List.inj_on_of_nodup_map hownt.nodup hc hc' (hpid.trans hpid'.symm)]
              exact hdead'
  · rintro ⟨as, bs, t, rfl, hfirst, hrest, hearly, hdead⟩
    by_cases hwait : ∀ l ∈ as ++ bs, l.1 ≠ .wait3 row.conpid
    · -- the row is still held, by a dead child that is not collected
      obtain ⟨rowₜ, hrowₜ, hpid, -⟩ :=
        hsession.run hheld hfirst fun l hl => hwait l (List.mem_append_left _ hl)
      have hownt : Owned t := hfirst.invariant (fun _ _ _ => Owned.step) hown
      obtain ⟨c, hc, hcp, -⟩ := hownt.rowChild i rowₜ hrowₜ (hpid ▸ hheld)
      rw [hpid] at hcp
      refine absurd hphase (sweeps_for_dead hrest (fun l hl => hserve l ?_) (fun l hl => ?_) hc
        (hdead c hc hcp) hearly psa req)
      · exact List.mem_append_right _ hl
      · rw [hcp]
        exact hwait l (List.mem_append_right _ hl)
    · simp only [not_forall, not_not] at hwait
      obtain ⟨⟨e, fx⟩, hl, he⟩ := hwait
      obtain rfl : e = .wait3 row.conpid := he
      exact freed_of_mem_wait3 hrow hr hserve hl

/-! ### The two requests -/

/-- The code of a reply is in its second byte. -/
theorem serverReplyMesg_code (junk : Reply) (hostname : List Byte) (resp : Byte) (mesg : List Byte) :
    (serverReplyMesg junk hostname resp mesg)[1]? = some resp := by
  rw [serverReplyMesg_eq]
  rfl

/-- A break request is answered that all is well only where it kills the child of
the row it addresses. -/
theorem break_ok {junk : Reply} {pid now : ℤ} {d : Daemon} {psa dst : Addr} {req : Request}
    (hcode : req.code = reqBreakConnection) {dgram : List Byte}
    (hsent : Effect.sendto dst dgram ∈ (processRequest hostsCtl junk pid now d psa req).2)
    (hok : dgram[1]? = some respOk) :
    Admitted hostsCtl psa req ∧ ∃ i row, Addresses d req i row ∧ row.conpid ≠ badPid ∧
      Effect.kill row.conpid ∈ (processRequest hostsCtl junk pid now d psa req).2 ∧
      (processRequest hostsCtl junk pid now d psa req).1.config = d.config := by
  have herr : ∀ m, (serverReplyMesg junk d.hostname.val respErr m)[1]? ≠ some respOk := by
    intro m
    rw [serverReplyMesg_code]
    decide
  have hlog := (logs_vlog d (text "received a break-connection request")).not_mem
    (e := .sendto dst dgram) (by simp)
  cases hctl : hostsCtl psa (Request.userString req) with
  | false => simp [processRequest, hctl] at hsent
  | true =>
      by_cases hversion : req.version = curVersion
      · cases hget : getcondata d.config req.conname.val req.conclass.val with
        | none =>
            simp [processRequest, hctl, hversion, hcode, hget, hlog] at hsent
            exact absurd (hsent.2 ▸ hok) (herr _)
        | some i =>
            obtain ⟨row, hrow, -⟩ := getcondata_some hget
            by_cases hfree : row.conpid = badPid
            · simp [processRequest, hctl, hversion, hcode, hget, hrow, hfree, hlog] at hsent
              exact absurd (hsent.2 ▸ hok) (herr _)
            · refine ⟨⟨hctl, hversion⟩, i, row, ⟨hget, hrow⟩, hfree, ?_, ?_⟩
              · exact processRequest_break ⟨hctl, hversion⟩ hcode ⟨hget, hrow⟩ hfree junk pid now
              · simp [processRequest, hctl, hversion, hcode, hget, hrow, hfree]
      · have hold : ¬req.version = 67 := hversion
        simp [processRequest, hctl, hold] at hsent
        exact absurd (hsent.2 ▸ hok) (herr _)

theorem userString_initRequest (stack : Request) (user : List Byte) (code : Byte)
    (connection cls : Option (List Byte)) :
    Request.userString (initRequest stack user code connection cls) = (cstr user).take 15 := by
  have hzero : (0 : Byte) ∈ (initRequest stack user code connection cls).user.val := by
    have hlen := (stack.user.strncpy user maxUserName).property
    exact List.mem_set (by rw [hlen]; decide) 0
  have hrest := eq_cstr_append_of_mem hzero
  rw [cstr_initRequest_user] at hrest
  rw [Request.userString, Request.bytes]
  simp only [List.drop_succ_cons, List.drop_zero]
  rw [hrest, List.append_assoc, List.append_assoc, List.cons_append]
  refine cstr_append_zero (fun hmem => ?_) _
  exact zero_not_mem_cstr user (List.mem_of_mem_take hmem)

end Daemon

/-! ### Thefts -/

/-- A stealing call of `reqTCPConnection` and what the daemon does meanwhile. The
first request was answered that the connection is broken, the second arrives, and
no other request arrives in between. -/
structure Theft (hostsCtl : Addr → List Byte → Bool) where
  connection : Option (CharArray maxConnectionName)
  cls : Option (CharArray maxClassName)
  host : List Byte
  stat : StatusreplyData
  history : History
  result : ℤ × Option (CharArray maxConnectionName) × Option (CharArray maxClassName)
  called : Prog.Runs (reqTCPConnection connection cls host true stat) history result
  first : Op
  second : Op
  third : Op
  rest : List Op
  ops : history.map Answered.op = first :: second :: third :: rest
  -- the two requests, from sockets of one host
  user : List Byte
  stack : Request
  stack' : Request
  breakReq : Request
  makeReq : Request
  asksBreak : request stack user first = some breakReq
  asksMake : request stack' user third = some makeReq
  psa : Addr
  psa' : Addr
  sameHost : ∀ user, hostsCtl psa' user = hostsCtl psa user
  -- the break is served
  m₀ : Machine
  reachable : Reachable (Step hostsCtl) Init m₀
  breaking : m₀.phase = .serving psa breakReq
  junk : Reply
  pid : ℤ
  now : ℤ
  fx : List Effect
  m₁ : Machine
  breaks : Step hostsCtl m₀ (.serve junk pid now, fx) m₁
  dgram : List Byte
  answered : Effect.sendto psa dgram ∈ fx
  ok : dgram[1]? = some respOk
  -- until the make is
  before : List (Event × List Effect)
  logged : List Effect
  behind : List (Event × List Effect)
  m₂ : Machine
  run : Run (Step hostsCtl) m₁ (before ++ (.datagram psa' makeReq.bytes, logged) :: behind) m₂
  alone : Quiet before ∧ Quiet behind
  making : m₂.phase = .serving psa' makeReq
  junk' : Reply
  pid' : ℤ
  now' : ℤ
  fx' : List Effect
  m₃ : Machine
  makes : Step hostsCtl m₂ (.serve junk' pid' now', fx') m₃

variable {hostsCtl : Addr → List Byte → Bool}

/-- The thief's request is granted: the daemon forks a child that will tell it
its port. -/
def Theft.Granted (t : Theft hostsCtl) : Prop := ∃ i, Effect.fork t.pid' i t.psa' ∈ t.fx'

/-- The child that the break killed was dead before the daemon's sweep for the
second request was over. -/
def Theft.InTime (t : Theft hostsCtl) : Prop :=
  ∀ p, Effect.kill p ∈ t.fx → DeadInTime hostsCtl t.m₁
    (t.before ++ (.datagram t.psa' t.makeReq.bytes, t.logged) :: t.behind) t.m₂ p

theorem Theft.requests (t : Theft hostsCtl) :
    t.breakReq = initRequest t.stack t.user reqBreakConnection (some t.stat.conname)
      (some t.stat.conclass) ∧
    t.makeReq = initRequest t.stack' t.user reqMakeConnection (some t.stat.conname)
      (some t.stat.conclass) := by
  obtain ⟨hfirst, -, hthird⟩ := steal_ops t.called t.ops
  have hbreak := t.asksBreak
  have hmake := t.asksMake
  rw [hfirst] at hbreak
  rw [hthird] at hmake
  exact ⟨(Option.some.inj hbreak).symm, (Option.some.inj hmake).symm⟩

/-- No other request is served, so the second one is served next. -/
theorem Theft.unserved (t : Theft hostsCtl) (hphase : t.m₁.phase.request = none) :
    Unserved (t.before ++ (.datagram t.psa' t.makeReq.bytes, t.logged) :: t.behind) := by
  obtain ⟨s, hbefore, hrest⟩ := t.run.split
  have hsome : t.m₂.phase.request ≠ none := by simp [t.making, Phase.request]
  cases hrest with
  | cons hs hbehind =>
      intro l hl
      rcases List.mem_append.mp hl with hl | hl
      · exact (t.alone.1.unserved hbefore hphase).1 l hl
      · rcases List.mem_cons.mp hl with rfl | hl
        · simp
        · exact t.alone.2.unserved_of_request hbehind hsome l hl

/-- The second request addresses the row of the first. -/
theorem Theft.row (t : Theft hostsCtl) : ∃ i row, t.m₁.config[i]? = some row ∧
    row.conpid ≠ badPid ∧ Effect.kill row.conpid ∈ t.fx ∧
    (∀ p, Effect.kill p ∈ t.fx → p = row.conpid) ∧ Owned t.m₁ ∧ t.m₁.phase.request = none ∧
    Admitted hostsCtl t.psa' t.makeReq ∧ t.makeReq.code = reqMakeConnection ∧
    ∃ row', Addresses t.m₂.daemon t.makeReq i row' := by
  obtain ⟨hbreakReq, hmakeReq⟩ := t.requests
  have hown : Owned t.m₀ := Owned.reachable t.reachable
  obtain ⟨-, r, hr, hfx, hm₁, -⟩ := t.breaks.served t.breaking
  have hcode : t.breakReq.code = reqBreakConnection := by rw [hbreakReq, initRequest_code]
  have hanswered := t.answered
  rw [hfx, hr] at hanswered
  obtain ⟨hadm, i, row, haddr, hheld, hkill, hconfig⟩ := break_ok hcode hanswered t.ok
  have hacts := actsOn_of_addresses t.breaking hadm haddr t.breaks
  have hrow : t.m₁.config[i]? = some row := by
    rw [hm₁, hr]
    show (processRequest hostsCtl t.junk t.pid t.now t.m₀.daemon t.psa t.breakReq).1.config[i]? = _
    rw [hconfig]
    exact haddr.2
  have hadm' : Admitted hostsCtl t.psa' t.makeReq := by
    have huser := hadm.1
    rw [hbreakReq, userString_initRequest, ← t.sameHost] at huser
    rw [hmakeReq]
    exact ⟨by rwa [userString_initRequest], rfl⟩
  -- the names of the table and of the request are as they were
  have hnames : names t.m₂.config = names t.m₀.config := (names_of_run t.run).trans t.breaks.names
  have hget : getcondata t.m₂.daemon.config t.makeReq.conname.val t.makeReq.conclass.val =
    some i := by
    have hfields := @getcondata_fields t.m₀.config t.stack' t.stack t.user t.user reqMakeConnection
      reqBreakConnection (some t.stat.conname) (some t.stat.conname) (some t.stat.conclass)
      (some t.stat.conclass) rfl rfl
    rw [← hmakeReq, ← hbreakReq] at hfields
    exact (getcondata_congr _ _ hnames).trans (hfields.trans haddr.1)
  obtain ⟨row', hrow', -⟩ := getcondata_some hget
  refine ⟨i, row, hrow, hheld, ?_, hacts.kills, hown.step t.breaks, ?_, hadm', ?_, row', hget,
    hrow'⟩
  · rw [hfx, hr]
    exact hkill
  · rw [hm₁]
    rfl
  · rw [hmakeReq, initRequest_code]

/-- **Stealing is all or nothing just in time.** After its break was answered well
the thief is granted the row if and only if the killed child was dead before the
daemon's sweep for the second request was over and the fork succeeds. -/
theorem steal_granted_iff (t : Theft hostsCtl) : t.Granted ↔ t.InTime ∧ 0 ≤ t.pid' := by
  obtain ⟨i, row, hrow, hheld, hkill, hkills, hown, hphase, hadm, hcode, row', haddr⟩ := t.row
  have hfree := free_iff_deadInTime hown hrow hheld t.run (t.unserved hphase) t.making
  have hintime : t.InTime ↔ row'.conpid = badPid := by
    have hrow' : t.m₂.config[i]? = some row' := haddr.2
    rw [hrow'] at hfree
    simp only [Option.some.injEq, exists_eq_left'] at hfree
    rw [hfree]
    exact ⟨fun h => h _ hkill, fun h p hp => hkills p hp ▸ h⟩
  rw [hintime]
  obtain ⟨-, r, hr, hfx, -, hserved⟩ := t.makes.served t.making
  constructor
  · rintro ⟨j, hfork⟩
    have hmem : (t.pid', j) ∈ r.2.filterMap Effect.forked :=
      List.mem_filterMap.mpr ⟨_, hfx ▸ hfork, rfl⟩
    cases hserved with
    | same _ hnone => exact absurd hmem (by simp [hnone])
    | touched _ _ _ _ _ _ _ _ hnone => exact absurd hmem (by simp [hnone])
    | made k row₁ _ _ haddr₁ hfree₁ hpid => exact ⟨(haddr₁.unique haddr).2 ▸ hfree₁, hpid⟩
  · rintro ⟨hfree', hpid⟩
    refine ⟨i, ?_⟩
    rw [hfx, hr]
    exact fork_of_make hadm hcode haddr hfree' hpid _ _

/-! ### Two thefts -/

def argoStat : StatusreplyData := ⟨text "argo", text "mips", 1, text "ann", text "09:00:00"⟩

/-- All calls of the thief succeed. -/
def thiefAnswer (op : Op) : Option (Res op) :=
  match op with
  | .obtainStatus _ _ _ => none
  | .reqGeneric _ _ _ _ => some (some zeroReply)
  | .connectTCP _ _ => some (5 : ℤ)
  | .rand => some (0 : ℕ)
  | .usleep _ => some ()
  | .undefined => none

def thiefRequest (code : Byte) : Request :=
  initRequest zeroRequest (text "bob") code (some (text "argo")) (some (text "mips"))

/-- Ann has made `argo`, and bob's break of it is about to be served. -/
def beforeBreak : List Event :=
  sampleRound (sampleRequest reqMakeConnection "ann" "argo") 7 100 ++
    [.datagram sampleAddr (thiefRequest reqBreakConnection).bytes, .noneDead]

theorem beforeBreak_some : (after noWrappers sampleMachine beforeBreak).isSome = true := by decide

def breakMachine : Machine := (after noWrappers sampleMachine beforeBreak).get beforeBreak_some

/-- A step that is computed. -/
def stepped (m : Machine) (e : Event) (h : (step noWrappers m e).isSome = true) :
    Machine × List Effect := (step noWrappers m e).get h

theorem stepped_step (m : Machine) (e : Event) (h : (step noWrappers m e).isSome = true) :
    Step noWrappers m (e, (stepped m e h).2) (stepped m e h).1 := (Option.some_get h).symm

def brokenMachine : Machine × List Effect := stepped breakMachine (.serve zeroReply (-1) 700) (by decide)

def brokenMesg : List Byte :=
  serverReplyMesg zeroReply breakMachine.daemon.hostname.val respOk (text "connection broken")

theorem thiefCall_some : (Prog.exec thiefAnswer
    (reqTCPConnection none none (text "xinu") true argoStat)).isSome = true := by decide

def thiefCall := (Prog.exec thiefAnswer
  (reqTCPConnection none none (text "xinu") true argoStat)).get thiefCall_some

theorem thiefCall_runs : Prog.Runs (reqTCPConnection none none (text "xinu") true argoStat)
    thiefCall.1 thiefCall.2 :=
  Prog.runs_of_exec (Option.some_get thiefCall_some).symm

/-- A theft of ann's session, up to what the daemon does before it serves the
second request. -/
def sampleTheft (before : List (Event × List Effect)) (logged : List Effect)
    (behind : List (Event × List Effect)) (alone : Quiet before ∧ Quiet behind) (m₂ : Machine)
    (run : Run (Step noWrappers) brokenMachine.1
      (before ++ (.datagram sampleAddr (thiefRequest reqMakeConnection).bytes, logged) :: behind) m₂)
    (making : m₂.phase = .serving sampleAddr (thiefRequest reqMakeConnection)) (fx' : List Effect)
    (m₃ : Machine) (makes : Step noWrappers m₂ (.serve zeroReply 8 701, fx') m₃) :
    Theft noWrappers where
  connection := none
  cls := none
  host := text "xinu"
  stat := argoStat
  history := thiefCall.1
  result := thiefCall.2
  called := thiefCall_runs
  first := .reqGeneric (text "argo") (text "mips") (text "xinu") reqBreakConnection
  second := .usleep 500
  third := .reqGeneric (text "argo") (text "mips") (text "xinu") reqMakeConnection
  rest := (thiefCall.1.map Answered.op).drop 3
  ops := rfl
  user := text "bob"
  stack := zeroRequest
  stack' := zeroRequest
  breakReq := thiefRequest reqBreakConnection
  makeReq := thiefRequest reqMakeConnection
  asksBreak := rfl
  asksMake := rfl
  psa := sampleAddr
  psa' := sampleAddr
  sameHost _ := rfl
  m₀ := breakMachine
  reachable := sampleMachine_reachable beforeBreak beforeBreak_some
  breaking := rfl
  junk := zeroReply
  pid := -1
  now := 700
  fx := brokenMachine.2
  m₁ := brokenMachine.1
  breaks := stepped_step _ _ _
  dgram := brokenMesg
  answered := List.mem_cons_of_mem _ List.mem_cons_self
  ok := serverReplyMesg_code _ _ _ _
  before := before
  logged := logged
  behind := behind
  m₂ := m₂
  run := run
  alone := alone
  making := making
  junk' := zeroReply
  pid' := 8
  now' := 701
  fx' := fx'
  m₃ := m₃
  makes := makes

def askAgain : Event := .datagram sampleAddr (thiefRequest reqMakeConnection).bytes

/-- Ann's child does not die before the second request is served. -/
def lateMachine : Machine × List Effect := stepped brokenMachine.1 askAgain (by decide)

def lateServing : Machine × List Effect := stepped lateMachine.1 .noneDead (by decide)

def lateServed : Machine × List Effect := stepped lateServing.1 (.serve zeroReply 8 701) (by decide)

def lateTheft : Theft noWrappers :=
  sampleTheft [] lateMachine.2 [(.noneDead, lateServing.2)] ⟨by simp [Quiet], by simp [Quiet]⟩
    lateServing.1 (.cons (stepped_step _ _ _) (.single (stepped_step _ _ _))) rfl lateServed.2
    lateServed.1 (stepped_step _ _ _)

/-- Ann's session is killed and bob is told that it is running. -/
theorem lateTheft_refused : Effect.kill 7 ∈ lateTheft.fx ∧ 0 ≤ lateTheft.pid' ∧
    lateTheft.fx' = [.sendto sampleAddr (serverReplyMesg zeroReply
      breakMachine.daemon.hostname.val respErr (text "connection running"))] ∧
    ¬lateTheft.Granted := by
  have hfx : lateTheft.fx' = [.sendto sampleAddr (serverReplyMesg zeroReply
      breakMachine.daemon.hostname.val respErr (text "connection running"))] := rfl
  refine ⟨List.mem_cons_self, by decide, hfx, ?_⟩
  rintro ⟨i, hfork⟩
  rw [hfx] at hfork
  simp at hfork

/-- Ann's child dies within the thief's half millisecond. -/
def earlyDead : Machine × List Effect := stepped brokenMachine.1 (.exits 7) (by decide)

def earlyAsked : Machine × List Effect := stepped earlyDead.1 askAgain (by decide)

def earlyReaped : Machine × List Effect := stepped earlyAsked.1 (.wait3 7) (by decide)

def earlyServing : Machine × List Effect := stepped earlyReaped.1 .noneDead (by decide)

def earlyServed : Machine × List Effect := stepped earlyServing.1 (.serve zeroReply 8 701) (by decide)

def earlyTheft : Theft noWrappers :=
  sampleTheft [(.exits 7, earlyDead.2)] earlyAsked.2
    [(.wait3 7, earlyReaped.2), (.noneDead, earlyServing.2)] ⟨by simp [Quiet], by simp [Quiet]⟩
    earlyServing.1 (.cons (stepped_step _ _ _) (.cons (stepped_step _ _ _)
      (.cons (stepped_step _ _ _) (.single (stepped_step _ _ _))))) rfl earlyServed.2
    earlyServed.1 (stepped_step _ _ _)

/-- Ann's session is killed and bob gets the row. -/
theorem earlyTheft_granted : earlyTheft.Granted := by
  refine (steal_granted_iff earlyTheft).mpr ⟨fun p hp => ?_, by decide⟩
  have hfx : earlyTheft.fx = [.kill 7, .sendto sampleAddr brokenMesg] := rfl
  obtain rfl : p = 7 := by simpa [hfx] using hp
  -- the child is dead when the second request arrives
  refine ⟨[(.exits 7, earlyDead.2)], _, earlyDead.1, rfl, .single (stepped_step _ _ _),
    .cons (stepped_step _ _ _) (.cons (stepped_step _ _ _) (.single (stepped_step _ _ _))),
    fun psa req h => ?_, ?_⟩
  · have hwaiting : earlyDead.1.phase = .waiting := rfl
    exact absurd (hwaiting.symm.trans h) (by simp)
  · have hdead : earlyDead.1.children = [⟨7, some 0, true⟩] := rfl
    simp [hdead]

end XinuConsole.Consoled
