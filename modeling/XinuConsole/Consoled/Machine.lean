import XinuConsole.Consoled.Request
import XinuConsole.Lib.Run

/-!
The main loop of `src/xinu-consoled.c` together with the operating system's
table of the daemon's children.

A round of the loop receives a datagram or times out, collects dead children
one `wait3` at a time until none is left, and serves the request if there is
one. Children exit at any moment. The system answers as documented: `wait3`
returns a terminated child that was not collected before, and zero only if
there is none; `fork` returns -1 or a positive number that no uncollected child
has.
-/

namespace XinuConsole.Consoled

open Lib ConnectUtils

/-- A child that was not collected yet. Its row is the one it was forked for;
a child that an earlier image of the daemon left behind has none. -/
structure Child where
  pid : ℤ
  row : Option ℕ
  dead : Bool
  deriving DecidableEq

/-- Where the daemon is in its main loop. -/
inductive Phase
  | waiting
  | sweeping (pending : Option (Addr × Request))
  | serving (psa : Addr) (req : Request)
  deriving DecidableEq

/-- The phase after a sweep. -/
def Phase.afterSweep : Option (Addr × Request) → Phase
  | none => .waiting
  | some (psa, req) => .serving psa req

structure Machine where
  daemon : Daemon
  children : List Child
  phase : Phase

def Machine.config (m : Machine) : List Condata := m.daemon.config

inductive Event
  | exits (pid : ℤ)
  | timeout
  | datagram (psa : Addr) (d : List Byte)
  | wait3 (childpid : ℤ)
  | noneDead
  | serve (junk : Reply) (pid now : ℤ)

/-- The numbers `fork` may answer with. -/
def ForkAnswer (children : List Child) (pid : ℤ) : Prop :=
  pid = -1 ∨ 0 < pid ∧ ∀ c ∈ children, c.pid ≠ pid

instance (children : List Child) (pid : ℤ) : Decidable (ForkAnswer children pid) :=
  inferInstanceAs (Decidable (_ ∨ _))

def exitChild (pid : ℤ) (c : Child) : Child := if c.pid = pid then { c with dead := true } else c

/-- The children that a round of effects adds. -/
def newChildren (fx : List Effect) : List Child :=
  (fx.filterMap Effect.forked).map fun p => { pid := p.1, row := some p.2, dead := false }

/-- One step; `none` where the event cannot happen. -/
def step (hostsCtl : Addr → List Byte → Bool) (m : Machine) :
    Event → Option (Machine × List Effect)
  | .exits pid =>
      if ∃ c ∈ m.children, c.pid = pid then
        some ({ m with children := m.children.map (exitChild pid) }, [])
      else none
  | .timeout =>
      match m.phase with
      | .waiting => some ({ m with phase := .sweeping none }, m.daemon.vlog (text "waiting for request"))
      | _ => none
  | .datagram psa d =>
      match m.phase with
      | .waiting =>
          some ({ m with phase := .sweeping ((recvfromRequest d).map fun req => (psa, req)) },
            m.daemon.vlog (text "waiting for request"))
      | _ => none
  | .wait3 childpid =>
      match m.phase with
      | .sweeping _ =>
          if ∃ c ∈ m.children, c.pid = childpid ∧ c.dead = true then
            some ({ m with
                daemon := collectChild m.daemon childpid
                children := m.children.filter fun c => c.pid ≠ childpid },
              m.daemon.vlog (text "child process " ++ fmtD childpid ++ text " has died "))
          else none
      | _ => none
  | .noneDead =>
      match m.phase with
      | .sweeping pending =>
          -- `wait3` returns 0 only when no child has died
          if ∃ c ∈ m.children, c.dead = true then none
          else some ({ m with phase := .afterSweep pending }, [])
      | _ => none
  | .serve junk pid now =>
      match m.phase with
      | .serving psa req =>
          if ForkAnswer m.children pid then
            let r := processRequest hostsCtl junk pid now m.daemon psa req
            some ({ daemon := r.1, children := m.children ++ newChildren r.2, phase := .waiting }, r.2)
          else none
      | _ => none

/-- The steps of the daemon and its children, labelled by the event and what
the daemon did. -/
def Step (hostsCtl : Addr → List Byte → Bool) (m : Machine) (l : Event × List Effect)
    (m' : Machine) : Prop := step hostsCtl m l.1 = some (m', l.2)

/-- The daemon after a list of events. -/
def after (hostsCtl : Addr → List Byte → Bool) : Machine → List Event → Option Machine :=
  runFn fun m e => (step hostsCtl m e).map Prod.fst

theorem run_of_after {hostsCtl : Addr → List Byte → Bool} {m m' : Machine} {es : List Event}
    (h : after hostsCtl m es = some m') :
    ∃ labels, Run (Step hostsCtl) m labels m' ∧ labels.map Prod.fst = es :=
  Run.of_runFn_fst h

/-- A daemon that has just read its configuration. The children it may have
are those of the image it was started from. -/
structure Init (m : Machine) : Prop where
  free : ∀ row ∈ m.config, row.conpid = badPid ∧ row.userName = []
  inherited : ∀ c ∈ m.children, c.row = none ∧ 0 < c.pid
  nodup : (m.children.map Child.pid).Nodup
  phase : m.phase = .waiting

/-! ### What a step can do -/

/-- What a step does to the table and the children. -/
inductive Stepped (hostsCtl : Addr → List Byte → Bool) (m : Machine) :
    Event × List Effect → Machine → Prop
  | exits (pid : ℤ) :
      Stepped hostsCtl m (.exits pid, []) { m with children := m.children.map (exitChild pid) }
  | received (e : Event) (fx : List Effect) (pending : Option (Addr × Request))
      (hphase : m.phase = .waiting) (hkill : ∀ p, Effect.kill p ∉ fx)
      (hfork : fx.filterMap Effect.forked = [])
      (he : e = .timeout ∨ ∃ psa d, e = .datagram psa d) :
      Stepped hostsCtl m (e, fx) { m with phase := .sweeping pending }
  | wait3 (childpid : ℤ) (fx : List Effect) (pending : Option (Addr × Request))
      (hphase : m.phase = .sweeping pending) (hkill : ∀ p, Effect.kill p ∉ fx)
      (hfork : fx.filterMap Effect.forked = [])
      (hdead : ∃ c ∈ m.children, c.pid = childpid ∧ c.dead = true) :
      Stepped hostsCtl m (.wait3 childpid, fx)
        { m with
          daemon := collectChild m.daemon childpid
          children := m.children.filter fun c => c.pid ≠ childpid }
  | noneDead (pending : Option (Addr × Request)) (hphase : m.phase = .sweeping pending)
      (halive : ∀ c ∈ m.children, c.dead = false) :
      Stepped hostsCtl m (.noneDead, [])
        { m with phase := .afterSweep pending }
  | serve (junk : Reply) (pid now : ℤ) (psa : Addr) (req : Request) (r : Daemon × List Effect)
      (hphase : m.phase = .serving psa req) (hpid : ForkAnswer m.children pid)
      (hr : r = processRequest hostsCtl junk pid now m.daemon psa req)
      (hserved : Served hostsCtl pid now m.daemon psa req r) :
      Stepped hostsCtl m (.serve junk pid now, r.2)
        { daemon := r.1, children := m.children ++ newChildren r.2, phase := .waiting }

theorem Step.cases {hostsCtl : Addr → List Byte → Bool} {m m' : Machine} {l : Event × List Effect}
    (h : Step hostsCtl m l m') : Stepped hostsCtl m l m' := by
  obtain ⟨e, fx⟩ := l
  unfold Step step at h
  cases e with
  | exits pid =>
      dsimp only at h
      split at h
      · obtain ⟨rfl, rfl⟩ := Prod.mk.inj (Option.some.inj h)
        exact .exits pid
      · exact absurd h (by simp)
  | timeout =>
      cases hphase : m.phase <;> simp only [hphase] at h
      · obtain ⟨rfl, rfl⟩ := Prod.mk.inj (Option.some.inj h)
        exact .received _ _ none hphase (kill_not_mem_vlog _ _) (filterMap_forked_vlog _ _)
          (.inl rfl)
      all_goals exact absurd h (by simp)
  | datagram psa d =>
      cases hphase : m.phase <;> simp only [hphase] at h
      · obtain ⟨rfl, rfl⟩ := Prod.mk.inj (Option.some.inj h)
        exact .received _ _ _ hphase (kill_not_mem_vlog _ _) (filterMap_forked_vlog _ _)
          (.inr ⟨psa, d, rfl⟩)
      all_goals exact absurd h (by simp)
  | wait3 childpid =>
      cases hphase : m.phase with
      | sweeping pending =>
          simp only [hphase] at h
          split at h
          · next hdead =>
              obtain ⟨rfl, rfl⟩ := Prod.mk.inj (Option.some.inj h)
              rw [← hphase]
              exact .wait3 childpid _ pending hphase (kill_not_mem_vlog _ _)
                (filterMap_forked_vlog _ _) hdead
          · exact absurd h (by simp)
      | _ => exact absurd h (by simp [hphase])
  | noneDead =>
      cases hphase : m.phase with
      | sweeping pending =>
          simp only [hphase] at h
          split at h
          · exact absurd h (by simp)
          · next halive =>
              obtain ⟨rfl, rfl⟩ := Prod.mk.inj (Option.some.inj h)
              exact .noneDead pending hphase fun c hc =>
                Bool.eq_false_iff.mpr fun hd => halive ⟨c, hc, hd⟩
      | _ => exact absurd h (by simp [hphase])
  | serve junk pid now =>
      cases hphase : m.phase with
      | serving psa req =>
          simp only [hphase] at h
          split at h
          · next hpid =>
              obtain ⟨rfl, rfl⟩ := Prod.mk.inj (Option.some.inj h)
              exact .serve junk pid now psa req _ hphase hpid rfl (processRequest_served ..)
          · exact absurd h (by simp)
      | _ => exact absurd h (by simp [hphase])

/-- A step that serves the pending request. -/
theorem Step.served {hostsCtl : Addr → List Byte → Bool} {m m' : Machine} {junk : Reply}
    {pid now : ℤ} {fx : List Effect} {psa : Addr} {req : Request}
    (hphase : m.phase = .serving psa req) (hs : Step hostsCtl m (.serve junk pid now, fx) m') :
    ForkAnswer m.children pid ∧ ∃ r, r = processRequest hostsCtl junk pid now m.daemon psa req ∧
      fx = r.2 ∧ m' = ⟨r.1, m.children ++ newChildren r.2, .waiting⟩ ∧
      Served hostsCtl pid now m.daemon psa req r := by
  cases hs.cases with
  | received e fx pending _ _ _ he => exact absurd he (by simp)
  | serve _ _ _ psa' req' r hphase' hpid hr hserved =>
      rw [hphase] at hphase'
      obtain ⟨rfl, rfl⟩ := Phase.serving.inj hphase'
      exact ⟨hpid, r, hr, rfl, rfl, hserved⟩

/-! ### A round of the loop -/

section Round

variable {hostsCtl : Addr → List Byte → Bool} {m : Machine} {psa : Addr} {req : Request}

theorem step_datagram (hphase : m.phase = .waiting) (psa : Addr) (req : Request) :
    Step hostsCtl m (.datagram psa req.bytes, m.daemon.vlog (text "waiting for request"))
      { m with phase := .sweeping (some (psa, req)) } := by
  simp only [Step, step, hphase, recvfromRequest_bytes, Option.map_some]

theorem step_noneDead (halive : ∀ c ∈ m.children, c.dead = false)
    (pending : Option (Addr × Request)) :
    Step hostsCtl { m with phase := .sweeping pending } (.noneDead, [])
      { m with phase := .afterSweep pending } := by
  have hnone : ¬∃ c ∈ m.children, c.dead = true := by
    rintro ⟨c, hc, hdead⟩
    rw [halive c hc] at hdead
    exact Bool.false_ne_true hdead
  exact if_neg hnone

theorem step_serve {pid : ℤ} (hpid : ForkAnswer m.children pid) (junk : Reply) (now : ℤ) :
    let r := processRequest hostsCtl junk pid now m.daemon psa req
    Step hostsCtl { m with phase := .serving psa req } (.serve junk pid now, r.2)
      ⟨r.1, m.children ++ newChildren r.2, .waiting⟩ :=
  if_pos hpid

end Round

/-- The request the daemon has received and not served yet. -/
def Phase.request : Phase → Option (Addr × Request)
  | .waiting => none
  | .sweeping pending => pending
  | .serving psa req => some (psa, req)

/-- The phases a datagram and the daemon's own events lead to. -/
theorem Step.phase_datagram {hostsCtl : Addr → List Byte → Bool} {m m' : Machine} {psa : Addr}
    {req : Request} {fx : List Effect} (hs : Step hostsCtl m (.datagram psa req.bytes, fx) m') :
    m'.phase = .sweeping (some (psa, req)) := by
  unfold Step step at hs
  cases hphase : m.phase <;> simp only [hphase, recvfromRequest_bytes] at hs
  · obtain ⟨rfl, -⟩ := Prod.mk.inj (Option.some.inj hs)
    rfl
  all_goals exact absurd hs (by simp)

theorem Step.phase_daemon {hostsCtl : Addr → List Byte → Bool} {m m' : Machine} {e : Event}
    {fx : List Effect} (hs : Step hostsCtl m (e, fx) m') (hrecv : ∀ psa d, e ≠ .datagram psa d)
    (hserve : ∀ junk pid now, e ≠ .serve junk pid now) :
    m'.phase.request = none ∨ m'.phase.request = m.phase.request := by
  cases hs.cases with
  | exits pid => exact .inr rfl
  | received e fx pending hphase hkill hfork he =>
      obtain rfl : e = .timeout := he.resolve_right fun ⟨psa, d, hd⟩ => hrecv psa d hd
      left
      simp only [Step, step, hphase] at hs
      obtain ⟨hm, -⟩ := Prod.mk.inj (Option.some.inj hs)
      rw [← hm]
      rfl
  | wait3 => exact .inr rfl
  | noneDead pending hphase =>
      right
      rw [hphase]
      cases pending <;> rfl
  | serve junk pid now => exact absurd rfl (hserve junk pid now)

/-- The pending request of a daemon came with a datagram. -/
theorem Step.request_cases {hostsCtl : Addr → List Byte → Bool} {m m' : Machine} {e : Event}
    {fx : List Effect} (h : Step hostsCtl m (e, fx) m') :
    m'.phase.request = none ∨ m'.phase.request = m.phase.request ∨
      ∃ psa d, e = .datagram psa d ∧
        m'.phase.request = (recvfromRequest d).map fun req => (psa, req) := by
  cases e with
  | datagram psa d =>
      refine .inr (.inr ⟨psa, d, rfl, ?_⟩)
      unfold Step step at h
      cases hphase : m.phase <;> simp only [hphase] at h
      · obtain ⟨rfl, -⟩ := Prod.mk.inj (Option.some.inj h)
        rfl
      all_goals exact absurd h (by simp)
  | serve junk pid now =>
      left
      cases h.cases with
      | received _ _ _ _ _ _ he => exact absurd he (by simp)
      | serve => rfl
  | _ => exact (h.phase_daemon (by simp) (by simp)).imp_right .inl

/-! ### A sample daemon -/

/-- A daemon with two free rows, on a machine without TCP wrappers. -/
def sampleMachine : Machine :=
  { daemon :=
      { verbose := false, logusers := true, hostname := CharArray.zero _,
        config := [argo, brig] }
    children := []
    phase := .waiting }

def noWrappers (_ : Addr) (_ : List Byte) : Bool := true

def sampleAddr : Addr := ⟨(10, 0, 0, 1), 40000⟩

/-- A zeroed reply. -/
def zeroReply : Reply := ⟨0, 0, CharArray.zero _, CharArray.zero _, fun _ => 0⟩

def zeroRequest : Request := ⟨0, 0, CharArray.zero _, CharArray.zero _, CharArray.zero _⟩

/-- A request as a client sends it. -/
def sampleRequest (code : Byte) (user name : String) : Request :=
  initRequest ⟨0, 0, CharArray.zero _, CharArray.zero _, CharArray.zero _⟩ (text user) code
    (some (text name)) (some defaultClassName)

/-- The events of one request served without a child dying. -/
def sampleRound (req : Request) (pid now : ℤ) : List Event :=
  [.datagram sampleAddr req.bytes, .noneDead, .serve zeroReply pid now]

theorem sampleMachine_init : Init sampleMachine where
  free := by decide
  inherited := by simp [sampleMachine]
  nodup := by simp [sampleMachine]
  phase := rfl

theorem sampleMachine_reachable (es : List Event)
    (h : (after noWrappers sampleMachine es).isSome = true) :
    Reachable (Step noWrappers) Init ((after noWrappers sampleMachine es).get h) := by
  obtain ⟨labels, hr, -⟩ := run_of_after (Option.some_get h).symm
  exact ⟨_, labels, sampleMachine_init, hr⟩

end XinuConsole.Consoled
