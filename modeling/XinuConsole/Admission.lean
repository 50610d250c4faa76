import XinuConsole.Correlation.Network

/-!
The children of the daemon until their programs run, and who they talk to.

A child that was forked for a request opens a port, tells it to the sender of
the request and takes the first connection there; the program gets it as its
standard input and output. The access rules are asked about the sender of the
request only. `console_peer` says what follows for the other end of the
connection.
-/

namespace XinuConsole.Consoled

open Lib ConnectUtils Correlation

/-- How far a child has got: what it listens on, or what its standard input and
output are connected to. -/
inductive Stage
  | forked
  | listening (port : UInt16) (queue : List Addr)
  | accepted (peer : Addr)
  | program (path : List Byte) (peer : Addr)
  deriving DecidableEq

/-- The port that a child listens on. -/
def Stage.port : Stage → Option UInt16
  | .listening port _ => some port
  | _ => none

/-- A running child with the arguments of `MakeConnection`. -/
structure Process where
  pid : ℤ
  psa : Addr
  req : Request
  cdata : Condata
  stage : Stage

/-- The daemon's machine, with the children that have not exited. -/
structure Site where
  machine : Machine
  processes : List Process

inductive SiteEvent
  | daemon (e : Event)
  | listens (j : ℕ) (junk : Reply) (port : UInt16)
  | attempt (peer : Addr) (port : UInt16)
  | accepts (j : ℕ)
  | execs (j : ℕ)

/-- The child of a `fork`. -/
def Effect.child (m : Machine) (req : Request) : Effect → Option Process
  | .fork pid i psa => (m.config[i]?).map fun cdata => ⟨pid, psa, req, cdata, .forked⟩
  | _ => none

def newProcesses (m : Machine) (fx : List Effect) : List Process :=
  match m.phase with
  | .serving _ req => fx.filterMap (Effect.child m req)
  | _ => []

/-- A child that exits runs no more. -/
def Process.survives (e : Event) (p : Process) : Bool :=
  match e with
  | .exits pid => p.pid ≠ pid
  | _ => true

/-- A connection attempt waits in the queue of the port. -/
def Stage.called (peer : Addr) (port : UInt16) : Stage → Stage
  | .listening port' queue => .listening port' (if port' = port then queue ++ [peer] else queue)
  | stage => stage

def Process.called (peer : Addr) (port : UInt16) (p : Process) : Process :=
  { p with stage := p.stage.called peer port }

/-- `makeTCPConnection` before it waits: the port goes to the sender of the
request. -/
def makeTCPConnection (junk : Reply) (hostname : List Byte) (psa : Addr) (port : UInt16) : Effect :=
  .sendto psa (serverReplyMesg junk hostname respOk (portMesg port))

/-- `acceptTCP`: the first connection in the queue, from wherever it is. -/
def acceptTCP (queue : List Addr) : Option Addr := queue.head?

/-- One step; `none` where the event cannot happen. -/
def siteStep (hostsCtl : Addr → List Byte → Bool) (s : Site) :
    SiteEvent → Option (Site × List Effect)
  | .daemon e =>
      (step hostsCtl s.machine e).map fun r =>
        (⟨r.1, s.processes.filter (Process.survives e) ++ newProcesses s.machine r.2⟩, r.2)
  | .listens j junk port =>
      match s.processes[j]? with
      | some ⟨pid, psa, req, cdata, .forked⟩ =>
          if ∃ p ∈ s.processes, p.stage.port = some port then none
          else
            some ({ s with processes := s.processes.set j ⟨pid, psa, req, cdata, .listening port []⟩ },
              [makeTCPConnection junk s.machine.daemon.hostname.val psa port])
      | _ => none
  | .attempt peer port =>
      some ({ s with processes := s.processes.map (Process.called peer port) }, [])
  | .accepts j =>
      match s.processes[j]? with
      | some ⟨pid, psa, req, cdata, .listening _ queue⟩ =>
          (acceptTCP queue).map fun peer =>
            ({ s with processes := s.processes.set j ⟨pid, psa, req, cdata, .accepted peer⟩ }, [])
      | _ => none
  | .execs j =>
      match s.processes[j]? with
      | some ⟨pid, psa, req, cdata, .accepted peer⟩ =>
          some ({ s with
            processes := s.processes.set j ⟨pid, psa, req, cdata, .program cdata.conprog peer⟩ }, [])
      | _ => none

/-- The steps of the site, labelled by the event and what was done. -/
def SiteStep (hostsCtl : Addr → List Byte → Bool) (s : Site) (l : SiteEvent × List Effect)
    (s' : Site) : Prop := siteStep hostsCtl s l.1 = some (s', l.2)

/-- The daemon has just read its configuration and has forked no child. -/
structure SiteInit (s : Site) : Prop where
  machine : Init s.machine
  processes : s.processes = []

/-! ### What a step can do -/

/-- A request of a run: a datagram of it. -/
def Came (labels : List (SiteEvent × List Effect)) (psa : Addr) (req : Request) : Prop :=
  ∃ d fx, (.daemon (.datagram psa d), fx) ∈ labels ∧ recvfromRequest d = some req

theorem Came.mono {labels more : List (SiteEvent × List Effect)} {psa : Addr} {req : Request}
    (h : Came labels psa req) : Came (labels ++ more) psa req := by
  obtain ⟨d, fx, hmem, hreq⟩ := h
  exact ⟨d, fx, List.mem_append_left _ hmem, hreq⟩

/-- The request of a child was received, admitted and asks for a connection. -/
structure Cleared (hostsCtl : Addr → List Byte → Bool) (labels : List (SiteEvent × List Effect))
    (p : Process) : Prop where
  came : Came labels p.psa p.req
  admitted : Admitted hostsCtl p.psa p.req
  code : p.req.code = reqMakeConnection

/-- A child of a served request is the request's. -/
theorem mem_newProcesses {hostsCtl : Addr → List Byte → Bool} {m : Machine} {psa : Addr}
    {req : Request} {junk : Reply} {pid now : ℤ} (hphase : m.phase = .serving psa req) {p : Process}
    (hp : p ∈ newProcesses m (processRequest hostsCtl junk pid now m.daemon psa req).2) :
    p.psa = psa ∧ p.req = req ∧ p.stage = .forked ∧ Admitted hostsCtl psa req ∧
      req.code = reqMakeConnection := by
  have hnone : ∀ line, Effect.child m req (.log line) = none := fun _ => rfl
  rw [newProcesses, hphase] at hp
  have hprocessed := processRequest_processed hostsCtl junk pid now m.daemon psa req
  revert hp
  generalize processRequest hostsCtl junk pid now m.daemon psa req = r at hprocessed
  intro hp
  cases hprocessed with
  | made i row logs logs' hlogs hlogs' hadm hcode haddr =>
      simp only [List.filterMap_append, List.filterMap_cons, hlogs.filterMap hnone,
        hlogs'.filterMap hnone, Effect.child, Machine.config, haddr.2, Option.map_some,
        List.nil_append, List.mem_singleton] at hp
      rw [hp]
      exact ⟨rfl, rfl, rfl, hadm, hcode⟩
  | silent logs hlogs => simp [hlogs.filterMap hnone] at hp
  | told d' logs resp m hlogs => simp [hlogs.filterMap hnone, Effect.child] at hp
  | listed logs hlogs => simp [hlogs.filterMap hnone, Effect.child] at hp
  | touched i row logs hlogs => simp [hlogs.filterMap hnone] at hp
  | broken i row logs hlogs => simp [hlogs.filterMap hnone, Effect.child] at hp

/-- How an event moves a child on. -/
inductive Moves (e : SiteEvent) : Stage → Stage → Prop
  | stays (stage : Stage) : Moves e stage stage
  | listens (port : UInt16) : Moves e .forked (.listening port [])
  | called (peer : Addr) (port : UInt16) (queue : List Addr) (he : e = .attempt peer port) :
      Moves e (.listening port queue) (.listening port (queue ++ [peer]))
  | accepts (port : UInt16) (peer : Addr) (queue : List Addr) :
      Moves e (.listening port (peer :: queue)) (.accepted peer)
  | execs (path : List Byte) (peer : Addr) : Moves e (.accepted peer) (.program path peer)

/-- A child after a step was there before or is the child of the request served. -/
inductive Comes (hostsCtl : Addr → List Byte → Bool) (s : Site) (e : SiteEvent) (p' : Process) : Prop
  | moved (p : Process) (hp : p ∈ s.processes) (hsame : p' = { p with stage := p'.stage })
      (hmoves : Moves e p.stage p'.stage)
  | new (hphase : s.machine.phase = .serving p'.psa p'.req) (hstage : p'.stage = .forked)
      (hadm : Admitted hostsCtl p'.psa p'.req) (hcode : p'.req.code = reqMakeConnection)

theorem moves_called (peer : Addr) (port : UInt16) (stage : Stage) :
    Moves (.attempt peer port) stage (stage.called peer port) := by
  cases stage with
  | listening port' queue =>
      rw [Stage.called]
      split
      · next h =>
          subst h
          exact .called peer port' queue rfl
      · exact .stays _
  | _ => exact .stays _

/-- One child is moved on, the others stay. -/
theorem comes_set {hostsCtl : Addr → List Byte → Bool} {s : Site} {e : SiteEvent} {j : ℕ}
    {p q p' : Process} (hp : s.processes[j]? = some p) (hp' : p' ∈ s.processes.set j q)
    (hsame : q = { p with stage := q.stage }) (hmoves : Moves e p.stage q.stage) :
    Comes hostsCtl s e p' := by
  rcases List.mem_or_eq_of_mem_set hp' with h | rfl
  · exact .moved p' h rfl (.stays _)
  · exact .moved p (List.mem_of_getElem? hp) hsame hmoves

theorem SiteStep.comes {hostsCtl : Addr → List Byte → Bool} {s s' : Site}
    {l : SiteEvent × List Effect} (h : SiteStep hostsCtl s l s') {p' : Process}
    (hp' : p' ∈ s'.processes) : Comes hostsCtl s l.1 p' := by
  obtain ⟨e, fx⟩ := l
  unfold SiteStep siteStep at h
  cases e with
  | daemon e =>
      obtain ⟨⟨m', fx'⟩, hstep, heq⟩ := Option.map_eq_some_iff.mp h
      obtain ⟨rfl, rfl⟩ := Prod.mk.inj heq
      rcases List.mem_append.mp hp' with hold | hnew
      · exact .moved p' (List.mem_of_mem_filter hold) rfl (.stays _)
      · have hs : Step hostsCtl s.machine (e, fx') m' := hstep
        have hserving : ∃ psa req, s.machine.phase = .serving psa req := by
          cases hphase : s.machine.phase with
          | serving psa req => exact ⟨psa, req, rfl⟩
          | _ => simp [newProcesses, hphase] at hnew
        obtain ⟨psa, req, hphase⟩ := hserving
        cases hs.cases with
        | exits pid => simp [newProcesses, hphase] at hnew
        | received _ _ _ hphase' => exact absurd (hphase.symm.trans hphase') (by simp)
        | wait3 _ _ _ hphase' => exact absurd (hphase.symm.trans hphase') (by simp)
        | noneDead _ hphase' => exact absurd (hphase.symm.trans hphase') (by simp)
        | serve junk pid now psa req r hphase _ hr _ =>
            subst hr
            obtain ⟨rfl, rfl, hstage, hadm, hcode⟩ := mem_newProcesses hphase hnew
            exact .new hphase hstage hadm hcode
  | listens j junk port =>
      dsimp only at h
      split at h
      · next pid psa req cdata hj =>
          split at h
          · exact absurd h (by simp)
          · obtain ⟨rfl, -⟩ := Prod.mk.inj (Option.some.inj h)
            exact comes_set hj hp' rfl (.listens port)
      · exact absurd h (by simp)
  | attempt peer port =>
      obtain ⟨rfl, -⟩ := Prod.mk.inj (Option.some.inj h)
      obtain ⟨p, hp, rfl⟩ := List.mem_map.mp hp'
      exact .moved p hp rfl (moves_called peer port p.stage)
  | accepts j =>
      dsimp only at h
      split at h
      · next pid psa req cdata port queue hj =>
          obtain ⟨peer, haccept, heq⟩ := Option.map_eq_some_iff.mp h
          obtain ⟨rfl, -⟩ := Prod.mk.inj heq
          obtain ⟨queue, rfl⟩ := List.head?_eq_some_iff.mp haccept
          exact comes_set hj hp' rfl (.accepts port peer queue)
      · exact absurd h (by simp)
  | execs j =>
      dsimp only at h
      split at h
      · next pid psa req cdata peer hj =>
          obtain ⟨rfl, -⟩ := Prod.mk.inj (Option.some.inj h)
          exact comes_set hj hp' rfl (.execs cdata.conprog peer)
      · exact absurd h (by simp)

theorem SiteStep.machine {hostsCtl : Addr → List Byte → Bool} {s s' : Site} {e : SiteEvent}
    {fx : List Effect} (h : SiteStep hostsCtl s (e, fx) s') :
    s'.machine = s.machine ∨ ∃ ev, e = .daemon ev ∧ Step hostsCtl s.machine (ev, fx) s'.machine := by
  unfold SiteStep siteStep at h
  cases e with
  | daemon ev =>
      obtain ⟨⟨m', fx'⟩, hstep, heq⟩ := Option.map_eq_some_iff.mp h
      obtain ⟨rfl, rfl⟩ := Prod.mk.inj heq
      exact .inr ⟨ev, rfl, hstep⟩
  | attempt peer port =>
      obtain ⟨rfl, -⟩ := Prod.mk.inj (Option.some.inj h)
      exact .inl rfl
  | listens j junk port =>
      left
      dsimp only at h
      split at h
      · split at h
        · exact absurd h (by simp)
        · obtain ⟨rfl, -⟩ := Prod.mk.inj (Option.some.inj h)
          rfl
      · exact absurd h (by simp)
  | accepts j =>
      left
      dsimp only at h
      split at h
      · obtain ⟨peer, -, heq⟩ := Option.map_eq_some_iff.mp h
        obtain ⟨rfl, -⟩ := Prod.mk.inj heq
        rfl
      · exact absurd h (by simp)
  | execs j =>
      left
      dsimp only at h
      split at h
      · obtain ⟨rfl, -⟩ := Prod.mk.inj (Option.some.inj h)
        rfl
      · exact absurd h (by simp)

/-! ### The other end of a connection -/

/-- The pending request came with a datagram, and so did the requests of the
children, which were admitted. -/
structure Known (hostsCtl : Addr → List Byte → Bool) (labels : List (SiteEvent × List Effect))
    (s : Site) : Prop where
  pending : ∀ psa req, s.machine.phase.request = some (psa, req) → Came labels psa req
  processes : ∀ p ∈ s.processes, Cleared hostsCtl labels p

theorem Known.step {hostsCtl : Addr → List Byte → Bool} {labels : List (SiteEvent × List Effect)}
    {s s' : Site} {l : SiteEvent × List Effect} (h : Known hostsCtl labels s)
    (hs : SiteStep hostsCtl s l s') : Known hostsCtl (labels ++ [l]) s' where
  pending := by
    intro psa req hreq
    obtain ⟨e, fx⟩ := l
    rcases hs.machine with hm | ⟨ev, rfl, hm⟩
    · rw [hm] at hreq
      exact (h.pending psa req hreq).mono
    · rcases hm.request_cases with hnone | hsame | ⟨psa', d, rfl, hcame⟩
      · exact absurd (hnone.symm.trans hreq) (by simp)
      · exact (h.pending psa req (hsame.symm.trans hreq)).mono
      · obtain ⟨req', hrecv, heq⟩ := Option.map_eq_some_iff.mp (hcame.symm.trans hreq)
        obtain ⟨rfl, rfl⟩ := Prod.mk.inj heq
        exact ⟨d, fx, by simp, hrecv⟩
  processes := by
    intro p' hp'
    cases hs.comes hp' with
    | moved p hp hsame _ =>
        obtain ⟨hcame, hadm, hcode⟩ := h.processes p hp
        rw [hsame]
        exact ⟨hcame.mono, hadm, hcode⟩
    | new hphase _ hadm hcode =>
        refine ⟨(h.pending _ _ ?_).mono, hadm, hcode⟩
        rw [hphase]
        rfl

/-- The connection that is first in the queue, or was taken. -/
def Stage.peer : Stage → Option Addr
  | .forked => none
  | .listening _ queue => queue.head?
  | .accepted peer => some peer
  | .program _ peer => some peer

/-- `peer` was the first to call the port of the child `p`. -/
def CalledFirst (hostsCtl : Addr → List Byte → Bool) (s₀ : Site)
    (labels : List (SiteEvent × List Effect)) (p : Process) (peer : Addr) : Prop :=
  ∃ as port fx bs t, labels = as ++ (.attempt peer port, fx) :: bs ∧
    Run (SiteStep hostsCtl) s₀ as t ∧ { p with stage := .listening port [] } ∈ t.processes

theorem CalledFirst.mono {hostsCtl : Addr → List Byte → Bool} {s₀ : Site}
    {labels : List (SiteEvent × List Effect)} {p : Process} {peer : Addr}
    (h : CalledFirst hostsCtl s₀ labels p peer) (more : List (SiteEvent × List Effect)) :
    CalledFirst hostsCtl s₀ (labels ++ more) p peer := by
  obtain ⟨as, port, fx, bs, t, rfl, hr, hmem⟩ := h
  exact ⟨as, port, fx, bs ++ more, t, by simp, hr, hmem⟩

/-- Whoever a child talks to, or will, was the first to call its port. -/
theorem calledFirst_step {hostsCtl : Addr → List Byte → Bool} {s₀ s s' : Site}
    {labels : List (SiteEvent × List Effect)} {l : SiteEvent × List Effect}
    (hr : Run (SiteStep hostsCtl) s₀ labels s) (hs : SiteStep hostsCtl s l s')
    (h : ∀ p ∈ s.processes, ∀ peer, p.stage.peer = some peer →
      CalledFirst hostsCtl s₀ labels p peer) :
    ∀ p ∈ s'.processes, ∀ peer, p.stage.peer = some peer →
      CalledFirst hostsCtl s₀ (labels ++ [l]) p peer := by
  intro p' hp' peer hpeer
  cases hs.comes hp' with
  | new _ hstage => simp [hstage, Stage.peer] at hpeer
  | moved p hp hsame hmoves =>
      have hold : p.stage.peer = some peer → CalledFirst hostsCtl s₀ (labels ++ [l]) p' peer := by
        intro hpeer
        rw [hsame]
        exact (h p hp peer hpeer).mono [l]
      generalize hst : p.stage = stage at hmoves hold
      generalize p'.stage = stage' at hmoves hpeer
      cases hmoves with
      | stays => exact hold hpeer
      | listens port => simp [Stage.peer] at hpeer
      | called caller port queue he =>
          cases queue with
          | cons first queue => exact hold (by simpa [Stage.peer] using hpeer)
          | nil =>
              -- the call that the child will take
              obtain rfl : caller = peer := by simpa [Stage.peer] using hpeer
              refine ⟨labels, port, l.2, [], s, by rw [← he], hr, ?_⟩
              rw [hsame, ← hst]
              exact hp
      | accepts port caller queue => exact hold hpeer
      | execs path caller => exact hold hpeer

/-- The first to call a port is the host that it was told to. -/
def RequesterFirst (s : Site) : SiteEvent → Prop
  | .attempt peer port => ∀ p ∈ s.processes, p.stage = .listening port [] → peer.ip = p.psa.ip
  | _ => True

/-- No user of the host is admitted. -/
def Barred (hostsCtl : Addr → List Byte → Bool) (ip : Byte × Byte × Byte × Byte) : Prop :=
  ∀ addr user, addr.ip = ip → hostsCtl addr user = false

theorem known_of_run {hostsCtl : Addr → List Byte → Bool} {s₀ s : Site}
    {labels : List (SiteEvent × List Effect)} (hinit : SiteInit s₀)
    (hr : Run (SiteStep hostsCtl) s₀ labels s) : Known hostsCtl labels s := by
  refine hr.invariant_past (fun past s l s' h hs => h.step hs) [] ⟨fun psa req hreq => ?_, ?_⟩
  · rw [hinit.machine.phase] at hreq
    exact absurd hreq (by simp [Phase.request])
  · simp [hinit.processes]

/-- Where all datagrams and all calls come from one host. -/
theorem requesterFirst_of_single {hostsCtl : Addr → List Byte → Bool} {s₀ : Site}
    {labels : List (SiteEvent × List Effect)} (hinit : SiteInit s₀) {ip : Byte × Byte × Byte × Byte}
    (hdatagram : ∀ psa d, SiteEvent.daemon (.datagram psa d) ∈ labels.map Prod.fst → psa.ip = ip)
    (hattempt : ∀ peer port, SiteEvent.attempt peer port ∈ labels.map Prod.fst → peer.ip = ip) :
    ∀ as l bs t, labels = as ++ l :: bs → Run (SiteStep hostsCtl) s₀ as t → RequesterFirst t l.1 := by
  rintro as ⟨e, fx⟩ bs t rfl hr
  cases e with
  | attempt peer port =>
      intro p hp _
      obtain ⟨d, fx', hmem, -⟩ := ((known_of_run hinit hr).processes p hp).came
      have hpsa : p.psa.ip = ip := by
        apply hdatagram p.psa d
        rw [List.map_append]
        exact List.mem_append_left _ (List.mem_map.mpr ⟨_, hmem, rfl⟩)
      rw [hpsa]
      exact hattempt peer port (by simp)
  | _ => exact trivial

/-- **The peers of the programs.** The child of every program was forked for a
request to make a connection that came with a datagram and was admitted; its
peer is the first that called the port. If in a run the first to call each port
is the host that the port was told to, the peer of every program is the host its
request came from, and no barred host is the peer of one. -/
theorem console_peer {hostsCtl : Addr → List Byte → Bool} {s₀ s : Site}
    {labels : List (SiteEvent × List Effect)} (hinit : SiteInit s₀)
    (hr : Run (SiteStep hostsCtl) s₀ labels s) :
    ∀ p ∈ s.processes, ∀ path peer, p.stage = .program path peer →
      Cleared hostsCtl labels p ∧ CalledFirst hostsCtl s₀ labels p peer ∧
      ((∀ as l bs t, labels = as ++ l :: bs → Run (SiteStep hostsCtl) s₀ as t →
        RequesterFirst t l.1) → peer.ip = p.psa.ip ∧ ¬Barred hostsCtl peer.ip) := by
  intro p hp path peer hstage
  have hcleared := (known_of_run hinit hr).processes p hp
  have hcalled : CalledFirst hostsCtl s₀ labels p peer := by
    have hinv := hr.invariant_past (J := fun past s => Run (SiteStep hostsCtl) s₀ past s ∧
      ∀ p ∈ s.processes, ∀ peer, p.stage.peer = some peer → CalledFirst hostsCtl s₀ past p peer)
      (fun past s l s' h hs => ⟨h.1.snoc hs, calledFirst_step h.1 hs h.2⟩) []
      ⟨.nil s₀, by simp [hinit.processes]⟩
    exact hinv.2 p hp peer (by rw [hstage]; rfl)
  refine ⟨hcleared, hcalled, fun hfirst => ?_⟩
  obtain ⟨as, port, fx, bs, t, hlabels, hrt, hmem⟩ := hcalled
  have hip : peer.ip = p.psa.ip := hfirst as _ bs t hlabels hrt
    { p with stage := .listening port [] } hmem rfl
  refine ⟨hip, fun hbarred => ?_⟩
  have hrefused := hbarred p.psa (Request.userString p.req) hip.symm
  rw [hcleared.admitted.1] at hrefused
  exact absurd hrefused (by simp)

/-! ### A sample site -/

/-- Access rules that admit one host. -/
def oneHost (addr : Addr) (_ : List Byte) : Bool := addr.ip = sampleAddr.ip

def sampleSite : Site := ⟨sampleMachine, []⟩

/-- Some host of another network. -/
def strangerAddr : Addr := ⟨(10, 6, 6, 6), 1024⟩

/-- A request is granted, and `caller` is the first to call the port. -/
def sampleCall (caller : Addr) : List SiteEvent :=
  (sampleRound (sampleRequest reqMakeConnection "ann" "argo") 7 100).map .daemon ++
    [.listens 0 zeroReply 5000, .attempt caller 5000, .attempt sampleAddr 5000, .accepts 0, .execs 0]

def siteAfter (hostsCtl : Addr → List Byte → Bool) : Site → List SiteEvent → Option Site :=
  runFn fun s e => (siteStep hostsCtl s e).map Prod.fst

theorem sampleSite_init : SiteInit sampleSite := ⟨sampleMachine_init, rfl⟩

theorem sampleCall_run (caller : Addr)
    (h : (siteAfter oneHost sampleSite (sampleCall caller)).isSome = true) :
    ∃ labels, Run (SiteStep oneHost) sampleSite labels
      ((siteAfter oneHost sampleSite (sampleCall caller)).get h) ∧
      labels.map Prod.fst = sampleCall caller :=
  Run.of_runFn_fst (Option.some_get h).symm

/-- Only the requester calls. -/
theorem console_peer_sample : ∃ labels s, Run (SiteStep oneHost) sampleSite labels s ∧
    ∃ p ∈ s.processes, ∃ path, p.stage = .program path sampleAddr ∧ Cleared oneHost labels p ∧
      CalledFirst oneHost sampleSite labels p sampleAddr ∧ ¬Barred oneHost sampleAddr.ip := by
  have h : (siteAfter oneHost sampleSite (sampleCall sampleAddr)).isSome = true := by decide
  obtain ⟨labels, hr, hlabels⟩ := sampleCall_run sampleAddr h
  have hp : (⟨7, sampleAddr, sampleRequest reqMakeConnection "ann" "argo", argo,
      .program argo.conprog sampleAddr⟩ : Process) ∈
      ((siteAfter oneHost sampleSite (sampleCall sampleAddr)).get h).processes :=
    List.mem_singleton.mpr rfl
  obtain ⟨hcleared, hcalled, hpeer⟩ := console_peer sampleSite_init hr _ hp _ _ rfl
  refine ⟨labels, _, hr, _, hp, _, rfl, hcleared, hcalled, (hpeer ?_).2⟩
  refine @requesterFirst_of_single _ _ labels sampleSite_init sampleAddr.ip ?_ ?_
  · rw [hlabels]
    intro psa d hmem
    simp only [sampleCall, sampleRound, List.map_cons, List.map_nil, List.cons_append,
      List.nil_append, List.mem_cons, SiteEvent.daemon.injEq, Event.datagram.injEq, reduceCtorEq,
      List.not_mem_nil, or_false] at hmem
    rw [hmem.1]
  · rw [hlabels]
    intro peer port hmem
    simp only [sampleCall, sampleRound, List.map_cons, List.map_nil, List.cons_append,
      List.nil_append, List.mem_cons, SiteEvent.attempt.injEq, reduceCtorEq, List.not_mem_nil,
      or_false, false_or, or_self] at hmem
    rw [hmem.1]

/-- A stranger calls first. -/
theorem stranger_peer : ∃ labels s, SiteInit sampleSite ∧ Run (SiteStep oneHost) sampleSite labels s ∧
    ∃ p ∈ s.processes, ∃ path, p.stage = .program path strangerAddr ∧
      strangerAddr.ip ≠ p.psa.ip ∧ Barred oneHost strangerAddr.ip := by
  have h : (siteAfter oneHost sampleSite (sampleCall strangerAddr)).isSome = true := by decide
  obtain ⟨labels, hr, -⟩ := sampleCall_run strangerAddr h
  have hp : (⟨7, sampleAddr, sampleRequest reqMakeConnection "ann" "argo", argo,
      .program argo.conprog strangerAddr⟩ : Process) ∈
      ((siteAfter oneHost sampleSite (sampleCall strangerAddr)).get h).processes :=
    List.mem_singleton.mpr rfl
  refine ⟨labels, _, sampleSite_init, hr, _, hp, _, rfl, by decide, fun addr user hip => ?_⟩
  simp [oneHost, hip, strangerAddr, sampleAddr]

end XinuConsole.Consoled
