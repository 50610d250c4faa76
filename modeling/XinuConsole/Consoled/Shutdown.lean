import XinuConsole.Consoled.Ownership

/-!
The signal handlers `Quit` and `Reboot` of `src/xinu-consoled.c`.

A handler may run between any two steps of the daemon, so here the steps are
finer than in the main loop's model: `fork` returns, each member of a row is
assigned, `wait3` returns, the rows are gone through one at a time. `CleanUp`
itself is a loop over the rows that a second signal may interrupt. The system
keeps for each child that was not collected whether it was sent `SIGKILL`, and
apart from them the numbers of all other processes that were.
-/

namespace XinuConsole.Consoled.Shutdown

open Lib ConnectUtils

inductive Signal
  | sigint
  | sigquit
  | sighup
  deriving DecidableEq

/-- The assignments at the end of `MakeConnection`. -/
inductive Lock
  | conpid
  | contime
  | user
  deriving DecidableEq

/-- The assignments in the inner loop of `findDeadChildren`. -/
inductive Free
  | user
  | contime
  | conpid
  deriving DecidableEq

/-- The place in the code that comes next. -/
inductive Point
  | main (phase : Phase)
  | made (req : Request) (i : ℕ) (pid : ℤ) (next : Lock)
  | reaping (pending : Option (Addr × Request)) (childpid : ℤ) (j : ℕ) (next : Free)
  | cleaning (sig : Signal) (j : ℕ)
  | cleaned (sig : Signal)
  | stopped
  deriving DecidableEq

/-- The daemon and what the system knows of its children. `killed` are the
numbers of the uncollected children that were sent `SIGKILL`, `strays` those of
all other processes that were. -/
structure State where
  daemon : Daemon
  children : List Child
  point : Point
  killed : List ℤ
  strays : List ℤ

inductive Event
  | exits (pid : ℤ)
  | timeout
  | datagram (psa : Addr) (d : List Byte)
  | wait3 (childpid : ℤ)
  | noneDead
  | sweep
  | serve (junk : Reply) (now : ℤ)
  | fork (pid : ℤ)
  | lock (now : ℤ)
  | signal (sig : Signal)
  | cleanUp
  | exit
  | exec (d : Daemon)

/-- `kill( p, SIGKILL )`. -/
def State.kill (s : State) (p : ℤ) : State :=
  if ∃ c ∈ s.children, c.pid = p then { s with killed := p :: s.killed }
  else { s with strays := p :: s.strays }

/-- An assignment to a member of the row `j`. -/
def State.assign (s : State) (j : ℕ) (f : Condata → Condata) (point : Point) : State :=
  { s with
    daemon := { s.daemon with config := s.daemon.config.modify j f }
    point := point }

/-- The process an effect kills. -/
def Effect.killed : Effect → Option ℤ
  | .kill p => some p
  | _ => none

/-- The row that a request is about to be given, if it is: the way through
`ProcessRequest` to the call of `fork`. -/
def granted (hostsCtl : Addr → List Byte → Bool) (d : Daemon) (psa : Addr) (req : Request) :
    Option (ℕ × Condata) :=
  if hostsCtl psa (Request.userString req) = true ∧ req.version = curVersion ∧
      req.code = reqMakeConnection then
    match getcondata d.config req.conname.val req.conclass.val with
    | none => none
    | some i =>
      match d.config[i]? with
      | none => none
      | some row => if row.conpid = badPid then some (i, row) else none
  else none

/-- One of the assignments of `MakeConnection`. -/
def lockMember (req : Request) (pid now : ℤ) (row : Condata) : Lock → Condata
  | .conpid => { row with conpid := pid }
  | .contime => { row with contime := now }
  | .user =>
      { row with
        user := row.user.strncpy req.user.val (maxUserName - 1)
        user_end := (lockRow pid now req.user.val row).user_end }

/-- The point after an assignment of `MakeConnection`. -/
def afterLock (req : Request) (i : ℕ) (pid : ℤ) : Lock → Point
  | .conpid => .made req i pid .contime
  | .contime => .made req i pid .user
  | .user => .main .waiting

theorem user_end_set (row : Condata) : (row.user.set 0 0).val[maxUserName - 1]? = some 0 := by
  have hend := row.user_end
  rw [CharArray.set, List.getElem?_set_ne (by decide)]
  exact hend

/-- One of the assignments of `findDeadChildren`. -/
def freeMember (row : Condata) : Free → Condata
  | .user =>
      { row with
        user := row.user.set 0 0
        user_end := user_end_set row }
  | .contime => { row with contime := 0 }
  | .conpid => { row with conpid := badPid }

/-- The point after an assignment of `findDeadChildren`. -/
def afterFree (pending : Option (Addr × Request)) (childpid : ℤ) (j : ℕ) : Free → Point
  | .user => .reaping pending childpid j .contime
  | .contime => .reaping pending childpid j .conpid
  | .conpid => .reaping pending childpid (j + 1) .user

/-- One step; `none` where the event cannot happen. -/
def step (hostsCtl : Addr → List Byte → Bool) (s : State) (e : Event) :
    Option (State × List Effect) :=
  match e, s.point with
  | .exits pid, _ =>
      if ∃ c ∈ s.children, c.pid = pid then
        some ({ s with children := s.children.map (exitChild pid) }, [])
      else none
  | .timeout, .main .waiting =>
      some ({ s with point := .main (.sweeping none) }, s.daemon.vlog (text "waiting for request"))
  | .datagram psa d, .main .waiting =>
      some ({ s with point := .main (.sweeping ((recvfromRequest d).map fun req => (psa, req))) },
        s.daemon.vlog (text "waiting for request"))
  | .wait3 childpid, .main (.sweeping pending) =>
      if ∃ c ∈ s.children, c.pid = childpid ∧ c.dead = true then
        some ({ s with
            children := s.children.filter fun c => c.pid ≠ childpid
            killed := s.killed.filter fun p => p ≠ childpid
            point := .reaping pending childpid 0 .user },
          s.daemon.vlog (text "child process " ++ fmtD childpid ++ text " has died "))
      else none
  | .noneDead, .main (.sweeping pending) =>
      if ∃ c ∈ s.children, c.dead = true then none
      else some ({ s with point := .main (.afterSweep pending) }, [])
  | .sweep, .reaping pending childpid j next =>
      match s.daemon.config[j]? with
      | none => some ({ s with point := .main (.sweeping pending) }, [])
      | some row =>
        if next = .user ∧ row.conpid ≠ childpid then
          some ({ s with point := .reaping pending childpid (j + 1) .user }, [])
        else
          some ((s.assign j (fun row => freeMember row next) (afterFree pending childpid j next)),
            [])
  | .serve junk now, .main (.serving psa req) =>
      match granted hostsCtl s.daemon psa req with
      | some _ => none
      | none =>
        -- no child is forked, whatever `fork` would answer
        let r := processRequest hostsCtl junk (-1) now s.daemon psa req
        some ((r.2.filterMap Effect.killed).foldl State.kill
          { s with daemon := r.1, point := .main .waiting }, r.2)
  | .fork pid, .main (.serving psa req) =>
      match granted hostsCtl s.daemon psa req with
      | none => none
      | some (i, row) =>
        if ForkAnswer s.children pid then
          let fx := s.daemon.vlog (text "received a make-connection request") ++
            (makeConnection pid 0 s.daemon psa req i row).2
          if pid < 0 then some ({ s with point := .main .waiting }, fx)
          else
            some ({ s with
                children := s.children ++ [⟨pid, some i, false⟩]
                point := .made req i pid .conpid }, fx)
        else none
  | .lock now, .made req i pid next =>
      some ((s.assign i (fun row => lockMember req pid now row next) (afterLock req i pid next)),
        [])
  | .signal _, .stopped => none
  | .signal sig, _ => some ({ s with point := .cleaning sig 0 }, [])
  | .cleanUp, .cleaning sig j =>
      match s.daemon.config[j]? with
      | none => some ({ s with point := .cleaned sig }, [])
      | some row =>
        let s' := { s with point := .cleaning sig (j + 1) }
        if row.conpid ≠ badPid then some (s'.kill row.conpid, [.kill row.conpid])
        else some (s', [])
  | .exit, .cleaned .sighup =>
      some ({ s with point := .stopped }, [.log (text "execv(server) failed")])
  | .exit, .cleaned _ => some ({ s with point := .stopped }, [.log (text "server exiting")])
  | .exec d, .cleaned .sighup =>
      -- the new image has read its configuration
      if ∀ row ∈ d.config, row.conpid = badPid ∧ row.userName = [] then
        some ({ s with
            daemon := d
            children := s.children.map fun c => { c with row := none }
            point := .main .waiting }, [])
      else none
  | _, _ => none

/-- The steps of the daemon, its children and its handlers. -/
def Step (hostsCtl : Addr → List Byte → Bool) (s : State) (l : Event × List Effect) (s' : State) :
    Prop := step hostsCtl s l.1 = some (s', l.2)

/-- A daemon that was just started, and not by an earlier one. -/
structure Init (s : State) : Prop where
  free : ∀ row ∈ s.daemon.config, row.conpid = badPid ∧ row.userName = []
  children : s.children = []
  point : s.point = .main .waiting
  killed : s.killed = []
  strays : s.strays = []

section Daemon

variable {hostsCtl : Addr → List Byte → Bool} {s s' : State}

/-! ### What a step can do -/

theorem granted_some {d : Daemon} {psa : Addr} {req : Request} {i : ℕ} {row : Condata}
    (h : granted hostsCtl d psa req = some (i, row)) :
    Admitted hostsCtl psa req ∧ req.code = reqMakeConnection ∧ Addresses d req i row ∧
      row.conpid = badPid := by
  unfold granted at h
  split at h
  · next hadm =>
      cases hget : getcondata d.config req.conname.val req.conclass.val with
      | none => simp [hget] at h
      | some k =>
          cases hrow : d.config[k]? with
          | none => simp [hget, hrow] at h
          | some row' =>
              simp only [hget, hrow] at h
              split at h
              · next hfree =>
                  obtain ⟨rfl, rfl⟩ := Prod.mk.inj (Option.some.inj h)
                  exact ⟨⟨hadm.1, hadm.2.1⟩, hadm.2.2, ⟨hget, hrow⟩, hfree⟩
              · exact absurd h (by simp)
  · exact absurd h (by simp)

/-- What a step does. -/
inductive Stepped (hostsCtl : Addr → List Byte → Bool) (s : State) :
    Event × List Effect → State → Prop
  | exits (pid : ℤ) :
      Stepped hostsCtl s (.exits pid, []) { s with children := s.children.map (exitChild pid) }
  | moved (e : Event) (fx : List Effect) (phase phase' : Phase) (hpoint : s.point = .main phase)
      (he : ∀ sig, e ≠ .signal sig) :
      Stepped hostsCtl s (e, fx) { s with point := .main phase' }
  | reaped (childpid : ℤ) (fx : List Effect) (pending : Option (Addr × Request))
      (hpoint : s.point = .main (.sweeping pending)) (hpid : ∃ c ∈ s.children, c.pid = childpid) :
      Stepped hostsCtl s (.wait3 childpid, fx)
        { s with
          children := s.children.filter fun c => c.pid ≠ childpid
          killed := s.killed.filter fun p => p ≠ childpid
          point := .reaping pending childpid 0 .user }
  | swept (pending : Option (Addr × Request)) (childpid : ℤ) (j : ℕ) (next : Free)
      (hpoint : s.point = .reaping pending childpid j next) (hend : s.daemon.config[j]? = none) :
      Stepped hostsCtl s (.sweep, []) { s with point := .main (.sweeping pending) }
  | passed (pending : Option (Addr × Request)) (childpid : ℤ) (j : ℕ) (row : Condata)
      (hpoint : s.point = .reaping pending childpid j .user)
      (hrow : s.daemon.config[j]? = some row) (hne : row.conpid ≠ childpid) :
      Stepped hostsCtl s (.sweep, []) { s with point := .reaping pending childpid (j + 1) .user }
  | freed (pending : Option (Addr × Request)) (childpid : ℤ) (j : ℕ) (next : Free) (row : Condata)
      (hpoint : s.point = .reaping pending childpid j next)
      (hrow : s.daemon.config[j]? = some row) (hheld : next = .user → row.conpid = childpid) :
      Stepped hostsCtl s (.sweep, [])
        (s.assign j (fun row => freeMember row next) (afterFree pending childpid j next))
  | served (junk : Reply) (now : ℤ) (psa : Addr) (req : Request) (r : Daemon × List Effect)
      (hpoint : s.point = .main (.serving psa req))
      (hserved : Served hostsCtl (-1) now s.daemon psa req r) :
      Stepped hostsCtl s (.serve junk now, r.2)
        ((r.2.filterMap Effect.killed).foldl State.kill
          { s with daemon := r.1, point := .main .waiting })
  | forked (pid : ℤ) (fx : List Effect) (psa : Addr) (req : Request) (i : ℕ) (row : Condata)
      (hpoint : s.point = .main (.serving psa req)) (hrow : s.daemon.config[i]? = some row)
      (hfree : row.conpid = badPid) (hpid : 0 < pid) (hnew : ∀ c ∈ s.children, c.pid ≠ pid) :
      Stepped hostsCtl s (.fork pid, fx)
        { s with
          children := s.children ++ [⟨pid, some i, false⟩]
          point := .made req i pid .conpid }
  | locked (now : ℤ) (req : Request) (i : ℕ) (pid : ℤ) (next : Lock)
      (hpoint : s.point = .made req i pid next) :
      Stepped hostsCtl s (.lock now, [])
        (s.assign i (fun row => lockMember req pid now row next) (afterLock req i pid next))
  | signalled (sig : Signal) :
      Stepped hostsCtl s (.signal sig, []) { s with point := .cleaning sig 0 }
  | finished (sig : Signal) (j : ℕ) (hpoint : s.point = .cleaning sig j)
      (hend : s.daemon.config[j]? = none) :
      Stepped hostsCtl s (.cleanUp, []) { s with point := .cleaned sig }
  | killed (sig : Signal) (j : ℕ) (row : Condata) (hpoint : s.point = .cleaning sig j)
      (hrow : s.daemon.config[j]? = some row) (hheld : row.conpid ≠ badPid) :
      Stepped hostsCtl s (.cleanUp, [.kill row.conpid])
        (State.kill { s with point := .cleaning sig (j + 1) } row.conpid)
  | spared (sig : Signal) (j : ℕ) (row : Condata) (hpoint : s.point = .cleaning sig j)
      (hrow : s.daemon.config[j]? = some row) (hfree : row.conpid = badPid) :
      Stepped hostsCtl s (.cleanUp, []) { s with point := .cleaning sig (j + 1) }
  | exited (sig : Signal) (fx : List Effect) (hpoint : s.point = .cleaned sig) :
      Stepped hostsCtl s (.exit, fx) { s with point := .stopped }
  | execed (d : Daemon) (sig : Signal) (hpoint : s.point = .cleaned sig)
      (hfree : ∀ row ∈ d.config, row.conpid = badPid ∧ row.userName = []) :
      Stepped hostsCtl s (.exec d, [])
        { s with
          daemon := d
          children := s.children.map fun c => { c with row := none }
          point := .main .waiting }

theorem Step.cases {l : Event × List Effect} (h : Step hostsCtl s l s') :
    Stepped hostsCtl s l s' := by
  obtain ⟨e, fx⟩ := l
  unfold Step step at h
  dsimp only at h
  split at h
  · split at h
    · obtain ⟨rfl, rfl⟩ := Prod.mk.inj (Option.some.inj h)
      exact .exits _
    · exact absurd h (by simp)
  · next hpoint =>
      obtain ⟨rfl, rfl⟩ := Prod.mk.inj (Option.some.inj h)
      exact .moved _ _ _ _ hpoint (by simp)
  · next hpoint =>
      obtain ⟨rfl, rfl⟩ := Prod.mk.inj (Option.some.inj h)
      exact .moved _ _ _ _ hpoint (by simp)
  · next hpoint =>
      split at h
      · next hdead =>
          obtain ⟨rfl, rfl⟩ := Prod.mk.inj (Option.some.inj h)
          obtain ⟨c, hc, hpid, -⟩ := hdead
          exact .reaped _ _ _ hpoint ⟨c, hc, hpid⟩
      · exact absurd h (by simp)
  · next hpoint =>
      split at h
      · exact absurd h (by simp)
      · obtain ⟨rfl, rfl⟩ := Prod.mk.inj (Option.some.inj h)
        exact .moved _ _ _ _ hpoint (by simp)
  · next hpoint =>
      split at h
      · next hend =>
          obtain ⟨rfl, rfl⟩ := Prod.mk.inj (Option.some.inj h)
          exact .swept _ _ _ _ hpoint hend
      · next row hrow =>
          split at h
          · next hne =>
              obtain ⟨rfl, rfl⟩ := Prod.mk.inj (Option.some.inj h)
              exact .passed _ _ _ row (hne.1 ▸ hpoint) hrow hne.2
          · next hheld =>
              obtain ⟨rfl, rfl⟩ := Prod.mk.inj (Option.some.inj h)
              exact .freed _ _ _ _ row hpoint hrow fun hnext =>
                not_not.mp fun hne => hheld ⟨hnext, hne⟩
  · next hpoint =>
      split at h
      · exact absurd h (by simp)
      · obtain ⟨rfl, rfl⟩ := Prod.mk.inj (Option.some.inj h)
        exact .served _ _ _ _ _ hpoint (processRequest_served ..)
  · next hpoint =>
      split at h
      · exact absurd h (by simp)
      · next i row hgranted =>
          obtain ⟨-, -, ⟨-, hrow⟩, hfree⟩ := granted_some hgranted
          split at h
          · next hpid =>
              split at h
              · obtain ⟨rfl, rfl⟩ := Prod.mk.inj (Option.some.inj h)
                exact .moved _ _ _ _ hpoint (by simp)
              · next hnonneg =>
                  obtain ⟨rfl, rfl⟩ := Prod.mk.inj (Option.some.inj h)
                  have hpid := hpid.resolve_left fun h => hnonneg (by omega)
                  exact .forked _ _ _ _ _ row hpoint hrow hfree hpid.1 hpid.2
          · exact absurd h (by simp)
  · next hpoint =>
      obtain ⟨rfl, rfl⟩ := Prod.mk.inj (Option.some.inj h)
      exact .locked _ _ _ _ _ hpoint
  · exact absurd h (by simp)
  · obtain ⟨rfl, rfl⟩ := Prod.mk.inj (Option.some.inj h)
    exact .signalled _
  · next hpoint =>
      split at h
      · next hend =>
          obtain ⟨rfl, rfl⟩ := Prod.mk.inj (Option.some.inj h)
          exact .finished _ _ hpoint hend
      · next row hrow =>
          split at h
          · next hheld =>
              obtain ⟨rfl, rfl⟩ := Prod.mk.inj (Option.some.inj h)
              exact .killed _ _ row hpoint hrow hheld
          · next hfree =>
              obtain ⟨rfl, rfl⟩ := Prod.mk.inj (Option.some.inj h)
              exact .spared _ _ row hpoint hrow (not_not.mp hfree)
  · next hpoint =>
      obtain ⟨rfl, rfl⟩ := Prod.mk.inj (Option.some.inj h)
      exact .exited _ _ hpoint
  · next hpoint =>
      obtain ⟨rfl, rfl⟩ := Prod.mk.inj (Option.some.inj h)
      exact .exited _ _ hpoint
  · next hpoint =>
      split at h
      · next hfree =>
          obtain ⟨rfl, rfl⟩ := Prod.mk.inj (Option.some.inj h)
          exact .execed _ _ hpoint hfree
      · exact absurd h (by simp)
  · exact absurd h (by simp)

/-! ### The steps of the main loop's model -/

/-- A request that is not granted a row is served the same whatever `fork` would
answer. -/
theorem processRequest_of_not_granted {d : Daemon} {psa : Addr} {req : Request}
    (h : granted hostsCtl d psa req = none) (junk : Reply) (pid now : ℤ) :
    processRequest hostsCtl junk pid now d psa req =
      processRequest hostsCtl junk (-1) now d psa req := by
  unfold granted at h
  unfold processRequest
  by_cases hctl : hostsCtl psa (Request.userString req) = true
  · by_cases hversion : req.version = curVersion
    · by_cases hcode : req.code = reqMakeConnection
      · cases hget : getcondata d.config req.conname.val req.conclass.val with
        | none => simp [hctl, hversion, hcode]
        | some i =>
            cases hrow : d.config[i]? with
            | none => simp [hctl, hversion, hcode, hrow]
            | some row =>
                have hheld : row.conpid ≠ badPid := by
                  simpa [hctl, hversion, hcode, hget, hrow] using h
                simp [hctl, hversion, hcode, hrow, hheld]
      · have hcode' : ¬req.code = 9 := hcode
        simp [hctl, hversion, hcode']
    · have hversion' : ¬req.version = 67 := hversion
      simp [hctl, hversion']
  · simp [hctl]

/-- A request that is granted a row is served by `MakeConnection`. -/
theorem processRequest_of_granted {d : Daemon} {psa : Addr} {req : Request} {i : ℕ} {row : Condata}
    (h : granted hostsCtl d psa req = some (i, row)) (junk : Reply) (pid now : ℤ) :
    processRequest hostsCtl junk pid now d psa req =
      ((makeConnection pid now d psa req i row).1,
        d.vlog (text "received a make-connection request") ++
          (makeConnection pid now d psa req i row).2) := by
  obtain ⟨⟨hctl, hversion⟩, hcode, ⟨hget, hrow⟩, hfree⟩ := granted_some h
  simp [processRequest, hctl, hversion, hcode, hget, hrow, hfree]

theorem step_sweep {pending : Option (Addr × Request)} {childpid : ℤ} {j : ℕ} {next : Free}
    {row : Condata} (hpoint : s.point = .reaping pending childpid j next)
    (hrow : s.daemon.config[j]? = some row) (hheld : row.conpid = childpid ∨ next ≠ .user) :
    Step hostsCtl s (.sweep, [])
      (s.assign j (fun row => freeMember row next) (afterFree pending childpid j next)) := by
  have hbody : ¬(next = .user ∧ row.conpid ≠ childpid) := by
    rintro ⟨hnext, hne⟩
    exact hheld.elim hne fun h => h hnext
  simp only [Step, step, hpoint, hrow, if_neg hbody]

theorem assign_row {j : ℕ} {row : Condata} (hrow : s.daemon.config[j]? = some row)
    (f : Condata → Condata) (point : Point) :
    (s.assign j f point).daemon.config[j]? = some (f row) := by
  simp [State.assign, hrow]

theorem assign_assign (s : State) (j : ℕ) (f g : Condata → Condata) (p q : Point) :
    (s.assign j f p).assign j g q = s.assign j (g ∘ f) q := by
  simp only [State.assign, List.modify_modify_eq]

theorem assign_congr {j : ℕ} {f g : Condata → Condata}
    (h : ∀ row, s.daemon.config[j]? = some row → f row = g row) (point : Point) :
    s.assign j f point = s.assign j g point := by
  simp only [State.assign, modify_congr h]

/-- The three assignments to a row of the collected child. -/
theorem sweep_row {pending : Option (Addr × Request)} {childpid : ℤ} {j : ℕ} {row : Condata}
    (hpoint : s.point = .reaping pending childpid j .user)
    (hrow : s.daemon.config[j]? = some row) (hheld : row.conpid = childpid) :
    Run (Step hostsCtl) s [(.sweep, []), (.sweep, []), (.sweep, [])]
      (s.assign j (freeRow childpid) (.reaping pending childpid (j + 1) .user)) := by
  have huser := @step_sweep hostsCtl _ _ _ _ _ _ hpoint hrow (.inl hheld)
  have hrow₁ := assign_row hrow (fun row => freeMember row .user)
    (afterFree pending childpid j .user)
  have hcontime := @step_sweep hostsCtl _ _ _ _ _ _ rfl hrow₁ (.inr (by simp))
  have hrow₂ := assign_row hrow₁ (fun row => freeMember row .contime)
    (afterFree pending childpid j .contime)
  have hconpid := @step_sweep hostsCtl _ _ _ _ _ _ rfl hrow₂ (.inr (by simp))
  have hfreed : s.assign j ((fun row => freeMember row .conpid) ∘
      (fun row => freeMember row .contime) ∘ fun row => freeMember row .user)
      (.reaping pending childpid (j + 1) .user) =
      s.assign j (freeRow childpid) (.reaping pending childpid (j + 1) .user) := by
    refine assign_congr (fun row' hrow' => ?_) _
    obtain rfl : row = row' := Option.some.inj (hrow.symm.trans hrow')
    simp [freeMember, freeRow, hheld]
  rw [assign_assign, assign_assign] at hconpid
  refine .cons huser (.cons hcontime (.single ?_))
  rw [assign_assign, ← hfreed]
  exact hconpid

/-- A table in which no row has the number is left as it is. -/
theorem map_freeRow {childpid : ℤ} {config : List Condata}
    (h : ∀ row ∈ config, row.conpid ≠ childpid) : config.map (freeRow childpid) = config := by
  refine (List.map_congr_left fun row hrow => ?_).trans (List.map_id _)
  exact Owned.freeRow_of_ne (h row hrow)

/-- After its last row the loop has seen the whole table. -/
theorem all_of_before {childpid : ℤ} {config : List Condata} {j : ℕ} (hend : config[j]? = none)
    (hbefore : ∀ (k : ℕ) (row : Condata), k < j → config[k]? = some row → row.conpid ≠ childpid) :
    ∀ row ∈ config, row.conpid ≠ childpid := by
  intro row hrow
  obtain ⟨k, hk⟩ := List.getElem?_of_mem hrow
  have hlt : k < config.length := (List.getElem?_eq_some_iff.mp hk).1
  have hlen : config.length ≤ j := List.getElem?_eq_none_iff.mp hend
  exact hbefore k row (by omega) hk

/-- The inner loop of `findDeadChildren` from the row `j` on. -/
theorem sweep_run {pending : Option (Addr × Request)} {childpid : ℤ} (hpos : 0 < childpid) (n : ℕ) :
    ∀ (s : State) (j : ℕ), s.daemon.config.length - j = n →
      s.point = .reaping pending childpid j .user →
      (∀ (k : ℕ) (row : Condata), k < j → s.daemon.config[k]? = some row →
        row.conpid ≠ childpid) →
      ∃ labels, Run (Step hostsCtl) s labels
          { s with daemon := collectChild s.daemon childpid, point := .main (.sweeping pending) } ∧
        labels.flatMap Prod.snd = [] := by
  induction n with
  | zero =>
      intro s j hlen hpoint hbefore
      have hend : s.daemon.config[j]? = none := List.getElem?_eq_none_iff.mpr (by omega)
      refine ⟨[(.sweep, [])], .single ?_, rfl⟩
      simp only [Step, step, hpoint, hend, collectChild, map_freeRow (all_of_before hend hbefore)]
  | succ n ih =>
      intro s j hlen hpoint hbefore
      have hj : j < s.daemon.config.length := by omega
      have hrow := List.getElem?_eq_getElem hj
      by_cases hheld : (s.daemon.config[j]).conpid = childpid
      · -- the row is freed, and free rows are left as they are
        have hfirst : Run (Step hostsCtl) s _ _ := sweep_row hpoint hrow hheld
        obtain ⟨labels, hr, hfx⟩ := ih
          (s.assign j (freeRow childpid) (.reaping pending childpid (j + 1) .user)) (j + 1)
          (by simp [State.assign]; omega) rfl fun k row hk hrow' => by
            rcases Nat.lt_succ_iff_lt_or_eq.mp hk with hk | rfl
            · have hother : s.daemon.config[k]? = some row := by
                simpa [State.assign, List.getElem?_modify_ne _ _ (Nat.ne_of_gt hk)] using hrow'
              exact hbefore k row hk hother
            · obtain rfl := Option.some.inj ((assign_row hrow _ _).symm.trans hrow')
              simp only [freeRow, if_pos hheld, badPid]
              omega
        refine ⟨_, hfirst.append ?_, by simpa using hfx⟩
        have hconfig : (s.daemon.config.modify j (freeRow childpid)).map (freeRow childpid) =
            s.daemon.config.map (freeRow childpid) := by
          refine map_modify (fun row => ?_) _ j
          unfold freeRow
          by_cases hr : row.conpid = childpid
          · have hne : badPid ≠ childpid := by
              rw [badPid]
              omega
            simp [hr, hne]
          · simp [hr]
        simpa [State.assign, collectChild, hconfig] using hr
      · obtain ⟨labels, hr, hfx⟩ := ih { s with point := .reaping pending childpid (j + 1) .user }
          (j + 1) (by simp; omega) rfl fun k row hk hrow' => by
            rcases Nat.lt_succ_iff_lt_or_eq.mp hk with hk | rfl
            · exact hbefore k row hk hrow'
            · obtain rfl := Option.some.inj (hrow.symm.trans hrow')
              exact hheld
        refine ⟨(.sweep, []) :: labels, .cons ?_ hr, by simpa using hfx⟩
        simp only [Step, step, hpoint, hrow, true_and, if_pos hheld]

/-- The state of the fine model in which the main loop is at a phase. -/
def ofMachine (m : Machine) (killed strays : List ℤ) : State :=
  ⟨m.daemon, m.children, .main m.phase, killed, strays⟩

theorem makeConnection_forked (pid now : ℤ) (d : Daemon) (psa : Addr) (req : Request) (i : ℕ)
    (row : Condata) : (makeConnection pid now d psa req i row).2.filterMap Effect.forked =
      if pid < 0 then [] else [(pid, i)] := by
  have hvlog := filterMap_forked_vlog d (text "program pid = " ++ fmtD pid)
  by_cases hneg : pid < 0 <;> by_cases hlog : d.logusers = true <;>
    simp only [makeConnection, hneg, hlog, if_true, if_false, List.filterMap_append, hvlog,
      List.filterMap_cons, List.filterMap_nil, List.append_nil, List.nil_append,
      Effect.forked, Bool.false_eq_true]

/-- The time is not in the effects. -/
theorem makeConnection_effects (pid now now' : ℤ) (d : Daemon) (psa : Addr) (req : Request) (i : ℕ)
    (row : Condata) : (makeConnection pid now d psa req i row).2 =
      (makeConnection pid now' d psa req i row).2 := by
  by_cases hneg : pid < 0 <;> simp [makeConnection, hneg]

/-- The three assignments to the row of a new child. -/
theorem lock_row {req : Request} {i : ℕ} {pid : ℤ} (now : ℤ) (hpoint : s.point = .made req i pid .conpid) :
    Run (Step hostsCtl) s [(.lock now, []), (.lock now, []), (.lock now, [])]
      (s.assign i (lockRow pid now req.user.val) (.main .waiting)) := by
  have hlock : ∀ (t : State) (next : Lock), t.point = .made req i pid next →
      Step hostsCtl t (.lock now, [])
        (t.assign i (fun row => lockMember req pid now row next) (afterLock req i pid next)) := by
    intro t next ht
    simp only [Step, step, ht, State.assign]
  have huser := hlock ((s.assign i (fun row => lockMember req pid now row .conpid)
    (.made req i pid .contime)).assign i (fun row => lockMember req pid now row .contime)
    (.made req i pid .user)) .user rfl
  rw [assign_assign, assign_assign] at huser
  refine .cons (hlock s .conpid hpoint) (.cons (hlock _ .contime rfl) (.single ?_))
  rw [assign_assign]
  exact huser

/-- `MakeConnection` from the call of `fork` on. -/
theorem make_run {psa : Addr} {req : Request} {i : ℕ} {row : Condata} {pid : ℤ} (now : ℤ)
    (hpoint : s.point = .main (.serving psa req))
    (hgranted : granted hostsCtl s.daemon psa req = some (i, row)) (hpid : ForkAnswer s.children pid) :
    ∃ labels, Run (Step hostsCtl) s labels
        { s with
          daemon := (makeConnection pid now s.daemon psa req i row).1
          children := s.children ++ newChildren (makeConnection pid now s.daemon psa req i row).2
          point := .main .waiting } ∧
      labels.flatMap Prod.snd = s.daemon.vlog (text "received a make-connection request") ++
        (makeConnection pid now s.daemon psa req i row).2 := by
  have hchildren : newChildren (makeConnection pid now s.daemon psa req i row).2 =
      if pid < 0 then [] else [⟨pid, some i, false⟩] := by
    rw [newChildren, makeConnection_forked]
    split <;> rfl
  rw [hchildren, makeConnection_effects pid now 0]
  by_cases hneg : pid < 0
  · refine ⟨[(.fork pid, _)], .single ?_, List.append_nil _⟩
    simp [Step, step, hpoint, hgranted, hpid, hneg, makeConnection]
  · have hlock := @lock_row hostsCtl ⟨s.daemon, s.children ++ [⟨pid, some i, false⟩],
      .made req i pid .conpid, s.killed, s.strays⟩ req i pid now rfl
    have hfork : Step hostsCtl s
      (.fork pid, s.daemon.vlog (text "received a make-connection request") ++
        (makeConnection pid 0 s.daemon psa req i row).2)
        ⟨s.daemon, s.children ++ [⟨pid, some i, false⟩], .made req i pid .conpid, s.killed,
          s.strays⟩ := by
      simp only [Step, step, hpoint, hgranted, if_pos hpid, if_neg hneg]
    refine ⟨_ :: [(.lock now, []), (.lock now, []), (.lock now, [])], .cons hfork ?_, by simp⟩
    simp only [makeConnection, if_neg hneg]
    exact hlock

/-- Kills only add to the records. -/
theorem foldl_kill_records (ps : List ℤ) (s : State) : ∃ killed strays,
    ps.foldl State.kill s = { s with killed := killed, strays := strays } := by
  induction ps generalizing s with
  | nil => exact ⟨s.killed, s.strays, rfl⟩
  | cons p ps ih =>
      obtain ⟨killed, strays, h⟩ := ih (s.kill p)
      refine ⟨killed, strays, ?_⟩
      rw [List.foldl_cons, h, State.kill]
      split <;> rfl

/-- A step of the main loop's model is a run of the fine steps with the same
effects. -/
theorem run_of_step {m m' : Machine} {e : Consoled.Event} {fx : List Effect} (hown : Owned m)
    (h : Consoled.Step hostsCtl m (e, fx) m') (killed strays : List ℤ) :
    ∃ labels killed' strays',
      Run (Step hostsCtl) (ofMachine m killed strays) labels (ofMachine m' killed' strays') ∧
      labels.flatMap Prod.snd = fx := by
  unfold Consoled.Step Consoled.step at h
  cases e with
  | exits pid =>
      dsimp only at h
      split at h
      · next hpid =>
          obtain ⟨rfl, rfl⟩ := Prod.mk.inj (Option.some.inj h)
          exact ⟨[(.exits pid, [])], killed, strays, .single (if_pos hpid), rfl⟩
      · exact absurd h (by simp)
  | timeout =>
      cases hphase : m.phase <;> simp only [hphase] at h
      · obtain ⟨rfl, rfl⟩ := Prod.mk.inj (Option.some.inj h)
        refine ⟨[(.timeout, m.daemon.vlog (text "waiting for request"))], killed, strays,
          .single ?_, List.append_nil _⟩
        simp only [Step, step, ofMachine, hphase]
      all_goals exact absurd h (by simp)
  | datagram psa d =>
      cases hphase : m.phase <;> simp only [hphase] at h
      · obtain ⟨rfl, rfl⟩ := Prod.mk.inj (Option.some.inj h)
        refine ⟨[(.datagram psa d, m.daemon.vlog (text "waiting for request"))], killed, strays,
          .single ?_, List.append_nil _⟩
        simp only [Step, step, ofMachine, hphase]
      all_goals exact absurd h (by simp)
  | wait3 childpid =>
      cases hphase : m.phase with
      | sweeping pending =>
          simp only [hphase] at h
          split at h
          · next hdead =>
              obtain ⟨rfl, rfl⟩ := Prod.mk.inj (Option.some.inj h)
              have hpos : 0 < childpid := by
                obtain ⟨c, hc, rfl, -⟩ := hdead
                exact hown.positive c hc
              have hwait : Step hostsCtl (ofMachine m killed strays) (.wait3 childpid,
                  m.daemon.vlog (text "child process " ++ fmtD childpid ++ text " has died "))
                  ⟨m.daemon, m.children.filter fun c => c.pid ≠ childpid,
                    .reaping pending childpid 0 .user, killed.filter fun p => p ≠ childpid,
                      strays⟩ := by
                simp only [Step, step, ofMachine, hphase, if_pos hdead]
              obtain ⟨labels, hr, hfx⟩ := @sweep_run hostsCtl pending childpid hpos _
                ⟨m.daemon, _, _, _, _⟩ 0 rfl rfl fun k row hk => absurd hk (by omega)
              refine ⟨_, _, _, .cons hwait hr, ?_⟩
              rw [List.flatMap_cons, hfx, List.append_nil]
          · exact absurd h (by simp)
      | _ => exact absurd h (by simp [hphase])
  | noneDead =>
      cases hphase : m.phase with
      | sweeping pending =>
          simp only [hphase] at h
          split at h
          · exact absurd h (by simp)
          · next halive =>
              obtain ⟨rfl, rfl⟩ := Prod.mk.inj (Option.some.inj h)
              refine ⟨[(.noneDead, [])], killed, strays, .single ?_, rfl⟩
              simp only [Step, step, ofMachine, hphase, if_neg halive]
      | _ => exact absurd h (by simp [hphase])
  | serve junk pid now =>
      cases hphase : m.phase with
      | serving psa req =>
          simp only [hphase] at h
          split at h
          · next hpid =>
              obtain ⟨rfl, rfl⟩ := Prod.mk.inj (Option.some.inj h)
              cases hgranted : granted hostsCtl m.daemon psa req with
              | none =>
                  rw [processRequest_of_not_granted hgranted]
                  have hnone : newChildren
                      (processRequest hostsCtl junk (-1) now m.daemon psa req).2 = [] := by
                    rw [newChildren]
                    cases processRequest_served hostsCtl junk (-1) now m.daemon psa req with
                    | same _ hfork => rw [hfork, List.map_nil]
                    | touched _ _ _ _ _ _ _ _ hfork => rw [hfork, List.map_nil]
                    | made _ _ _ _ _ _ hneg => exact absurd hneg (by decide)
                  obtain ⟨killed', strays', hkill⟩ := foldl_kill_records
                    ((processRequest hostsCtl junk (-1) now m.daemon psa req).2.filterMap
                      Effect.killed)
                    ⟨(processRequest hostsCtl junk (-1) now m.daemon psa req).1, m.children,
                      .main .waiting, killed, strays⟩
                  refine ⟨[(.serve junk now, _)], killed', strays', .single ?_, List.append_nil _⟩
                  simp only [Step, step, ofMachine, hphase, hgranted, hkill, hnone, List.append_nil]
              | some r =>
                  obtain ⟨i, row⟩ := r
                  obtain ⟨labels, hr, hfx⟩ := make_run (s := ofMachine m killed strays) now
                    (congrArg Point.main hphase) hgranted hpid
                  rw [processRequest_of_granted hgranted]
                  refine ⟨labels, killed, strays, ?_, hfx⟩
                  have hforked : newChildren
                    (m.daemon.vlog (text "received a make-connection request") ++
                      (makeConnection pid now m.daemon psa req i row).2) =
                      newChildren (makeConnection pid now m.daemon psa req i row).2 := by
                    rw [newChildren, List.filterMap_append, filterMap_forked_vlog]
                    rfl
                  rw [hforked]
                  exact hr
          · exact absurd h (by simp)
      | _ => exact absurd h (by simp [hphase])

/-- A run of the main loop's model is a run of the fine steps. -/
theorem run_of_run {m m' : Machine} {labels : List (Consoled.Event × List Effect)} (hown : Owned m)
    (hr : Run (Consoled.Step hostsCtl) m labels m') (killed strays : List ℤ) :
    ∃ labels' killed' strays',
      Run (Step hostsCtl) (ofMachine m killed strays) labels' (ofMachine m' killed' strays') ∧
      labels'.flatMap Prod.snd = labels.flatMap Prod.snd := by
  induction hr generalizing killed strays with
  | nil => exact ⟨[], killed, strays, .nil _, rfl⟩
  | cons hs _ ih =>
      obtain ⟨as, killed₁, strays₁, hfirst, hfx⟩ := run_of_step hown hs killed strays
      obtain ⟨bs, killed', strays', hrest, hfx'⟩ := ih (hown.step hs) killed₁ strays₁
      refine ⟨as ++ bs, killed', strays', hfirst.append hrest, ?_⟩
      rw [List.flatMap_append, hfx, hfx', List.flatMap_cons]

end Daemon

end XinuConsole.Consoled.Shutdown
