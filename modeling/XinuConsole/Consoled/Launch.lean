import XinuConsole.Lib.Descriptors
import XinuConsole.Lib.Run
import XinuConsole.Powerd.Descriptors
import XinuConsole.Support

/-!
The descriptors of the daemon, from `main` to the `execv` of a connection program.

`main` means to leave a harmless descriptor 0 behind in the background. The test of
what `open` answered is the wrong way round: `open` answers 0 there, which `dup2`
leaves where it is and `close` closes. So descriptor 0 stays free, the server's
socket gets it, and the connection gets it in the child, where it is closed again
when it has been copied.
-/

namespace XinuConsole.Consoled

open Lib

/-- What a descriptor refers to. Connections are counted by the caller. -/
inductive OpenFile
  | inherited (n : ℕ)
  | root
  | log
  | configuration
  | requests
  | listener
  | connection (n : ℕ)
  | tty
  deriving DecidableEq

abbrev Fds := Descriptors OpenFile

/-! ### Start -/

structure Options where
  background : Bool
  logfile : Bool

/-- `background` and `logfile` as they are initialised. -/
def Options.initial : Options := ⟨true, true⟩

/-- Which of the calls of `passivesock` succeed. -/
structure PassiveAnswers where
  getprotobyname : Bool
  socket : Bool
  bind : Bool
  listen : Bool

/-- `passivesock`; `stream` is the type it chooses by the protocol. -/
def passivesock (o : PassiveAnswers) (stream : Bool) (s : OpenFile) (t : Fds) : ℤ × Fds :=
  if o.getprotobyname = false then (-1, t)
  else
    let (fd, t) := t.alloc o.socket s
    if fd < 0 then (-1, t)
    else if o.bind = false then (-1, t.close fd)
    else if stream = true ∧ o.listen = false then (-1, t.close fd)
    else (fd, t)

def passiveUDP (o : PassiveAnswers) (t : Fds) : ℤ × Fds := passivesock o false .requests t

def passiveTCP (o : PassiveAnswers) (t : Fds) : ℤ × Fds := passivesock o true .listener t

/-- Which of the calls of `main` succeed. -/
structure StartAnswers where
  root : Bool
  log : Bool
  configuration : Bool
  requests : PassiveAnswers

/-- `main` where it leaves the terminal of its invoker. -/
def disassociate (root : Bool) (t : Fds) : Fds :=
  let t := t.close 0
  let (fd, t) := t.alloc root .root
  if fd ≤ 0 then (t.dup2 fd 0).2.close fd else t

/-- `main` where it opens the log file; `none` is an exit. -/
def openLogfile (log : Bool) (t : Fds) : Option Fds :=
  let (fd, t) := t.alloc log .log
  if fd < 0 then none
  else
    let t := (t.close 1).close 2
    let t := (t.dup2 fd 1).2
    let t := (t.dup2 fd 2).2
    some (t.close fd)

/-- `readConfigurationFile` for the descriptors. -/
def openConfiguration (configuration : Bool) (t : Fds) : Option Fds :=
  let (fd, t) := t.alloc configuration .configuration
  if fd < 0 then none else some (t.close fd)

/-- `sock`, and the descriptors behind it. -/
structure Server where
  sock : ℤ
  fds : Fds

/-- `main` up to the loop. -/
def start (options : Options) (o : StartAnswers) (t : Fds) : Option Server :=
  let t := if options.background then disassociate o.root t else t
  (if options.logfile then openLogfile o.log t else some t).bind fun t =>
    (openConfiguration o.configuration t).bind fun t =>
      let (sock, t) := passiveUDP o.requests t
      if sock < 0 then none else some ⟨sock, t⟩

/-! ### The child -/

/-- Which of the calls of `makeTCPConnection` succeed; `accept` fails too when the
alarm ends the child first. -/
structure ChildAnswers where
  listener : PassiveAnswers
  accept : Bool

def Server.makeTCPConnection (o : ChildAnswers) (n : ℕ) (server : Server) : Option (ℤ × Fds) :=
  let (fd, t) := passiveTCP o.listener server.fds
  if fd < 0 then none
  else
    let t := t.close server.sock
    let (rv, t) := t.alloc o.accept (.connection n)
    let t := t.close fd
    if rv < 0 then none else some (rv, t)

/-- The array that `MakeConnection` hands to `execv`. -/
def argv (cdata : Condata) : List (Option (List Byte)) :=
  some cdata.conprog :: cdata.progargs.map some ++
    List.replicate (maxNumberArgs - cdata.progargs.length) none ++ [none]

/-- The arguments `execv` finds in an array: those in front of the first null pointer. -/
def execArgs : List (Option (List Byte)) → List (List Byte)
  | some arg :: args => arg :: execArgs args
  | _ => []

/-- A program when it starts. -/
structure Program where
  path : List Byte
  args : List (List Byte)
  fds : Fds

/-- The child of `MakeConnection`; `none` is an exit. -/
def child (o : ChildAnswers) (n : ℕ) (cdata : Condata) (server : Server) : Option Program :=
  match server.makeTCPConnection o n with
  | none => none
  | some (tcp, t) =>
    let (rv, t) := t.dup2 tcp 0
    if rv = -1 then none
    else
      let (rv, t) := t.dup2 tcp 1
      if rv = -1 then none
      else
        let (rv, t) := t.dup2 tcp 2
        if rv = -1 then none
        else some ⟨cdata.conprog, execArgs (argv cdata), t.close tcp⟩

/-! ### The life of a daemon -/

/-- The daemon and the programs its children became, each with the number of its
connection. -/
structure Life where
  server : Server
  programs : List (ℕ × Program)

inductive Act
  | make (n : ℕ) (cdata : Condata) (o : ChildAnswers)
  | reboot (o : StartAnswers)

/-- A child is a copy of the daemon; `Reboot` starts the daemon again in the same
process, with the same arguments. -/
def Life.step (options : Options) (s : Life) : Act → Option Life
  | .make n cdata o =>
    some { s with programs := s.programs ++ (child o n cdata s.server).toList.map (n, ·) }
  | .reboot o =>
    (start options o (s.server.fds.close s.server.sock)).map fun server => { s with server := server }

/-! ### What the calls leave open -/

section Calls

variable {t t' : Fds}

/-- A call that fails leaves no descriptor behind, and one that succeeds leaves one. -/
theorem passivesock_cases (o : PassiveAnswers) (stream : Bool) (s : OpenFile) (t : Fds) :
    ((passivesock o stream s t).1 = -1 ∧ ∀ k, (passivesock o stream s t).2.get k = t.get k) ∨
      passivesock o stream s t = ((t.free : ℤ), t.set t.free (some s)) := by
  have hclosed (k : ℕ) : ((t.alloc o.socket s).2.close (t.alloc o.socket s).1).get k = t.get k :=
    Descriptors.get_close_alloc k
  unfold passivesock
  split
  · exact .inl ⟨rfl, fun _ => rfl⟩
  · dsimp only
    split
    · next hneg => exact .inl ⟨rfl, fun _ => by rw [Descriptors.alloc_of_neg hneg]⟩
    · next hnonneg =>
        split
        · exact .inl ⟨rfl, hclosed⟩
        · split
          · exact .inl ⟨rfl, hclosed⟩
          · exact .inr (Descriptors.alloc_of_nonneg (Int.not_lt.mp hnonneg))

theorem passivesock_of_nonneg {o : PassiveAnswers} {stream : Bool} {s : OpenFile}
    (h : 0 ≤ (passivesock o stream s t).1) :
    passivesock o stream s t = ((t.free : ℤ), t.set t.free (some s)) := by
  rcases passivesock_cases o stream s t with ⟨hneg, -⟩ | heq
  · rw [hneg] at h
    exact absurd h (by norm_num)
  · exact heq

/-- Nothing is left at descriptor 0, whether the root directory could be opened or not. -/
theorem disassociate_get (root : Bool) (t : Fds) (k : ℕ) :
    (disassociate root t).get k = if k = 0 then none else t.get k := by
  have hclose : ∀ k, (t.close 0).get k = if k = 0 then none else t.get k :=
    Descriptors.get_close_natCast 0
  have hfree : (t.close 0).free = 0 :=
    Descriptors.free_eq (by rw [hclose, if_pos rfl]) fun k hk => absurd hk (Nat.not_lt_zero k)
  cases root with
  | false => exact hclose k
  | true =>
      have hopen : (t.close 0).alloc true .root = (0, (t.close 0).set 0 (some .root)) := by
        rw [Descriptors.alloc, if_pos rfl, hfree]
        rfl
      have hzero : ((t.close 0).set 0 (some .root)).get 0 ≠ none := by simp
      have hdup := Descriptors.dup2_natCast hzero 0
      simp only [Nat.cast_zero] at hdup
      rw [disassociate, hopen]
      dsimp only
      rw [if_pos le_rfl, hdup]
      show (Descriptors.close _ ((0 : ℕ) : ℤ)).get k = _
      rw [Descriptors.get_close_natCast]
      split
      · rfl
      · next hne => rw [Descriptors.get_set, if_neg hne, Descriptors.get_set, if_neg hne, hclose, if_neg hne]

theorem openConfiguration_get {configuration : Bool} (h : openConfiguration configuration t = some t')
    (k : ℕ) : t'.get k = t.get k := by
  unfold openConfiguration at h
  dsimp only at h
  split at h
  · exact absurd h (by simp)
  · cases h
    exact Descriptors.get_close_alloc k

/-- The log file at 1 and 2, and nothing else is changed. -/
theorem openLogfile_get {log : Bool} (h : openLogfile log t = some t') (h₁ : t.get 1 ≠ none)
    (h₂ : t.get 2 ≠ none) (k : ℕ) :
    t'.get k = if k = 1 ∨ k = 2 then some .log else t.get k := by
  unfold openLogfile at h
  dsimp only at h
  split at h
  · exact absurd h (by simp)
  next hneg =>
  have hfree₁ := Descriptors.free_ne h₁
  have hfree₂ := Descriptors.free_ne h₂
  rw [Descriptors.alloc_of_nonneg (Int.not_lt.mp hneg)] at h
  generalize ht : (((t.set t.free (some .log)).close 1).close 2) = u at h
  have hu (k : ℕ) : u.get k =
      if k = 1 ∨ k = 2 then none else if k = t.free then some .log else t.get k := by
    rw [← ht]
    show (Descriptors.close (Descriptors.close _ ((1 : ℕ) : ℤ)) ((2 : ℕ) : ℤ)).get k = _
    simp only [Descriptors.get_close_natCast, Descriptors.get_set]
    grind
  have hlog : u.get t.free = some .log := by
    rw [hu, if_neg (by omega), if_pos rfl]
  have hone := Descriptors.get_dup2 (t := u) (n := t.free) (by simp [hlog]) 1
  generalize (u.dup2 t.free 1).2 = v at h hone
  have hlog' : v.get t.free = some .log := by
    rw [hone, if_neg hfree₁, hlog]
  have htwo := Descriptors.get_dup2 (t := v) (n := t.free) (by simp [hlog']) 2 k
  have hnone : t.get t.free = none := Descriptors.get_free
  cases h
  rw [Descriptors.get_close_natCast, htwo, hlog', hone, hlog, hu]
  grind

end Calls

/-! ### The daemon in its loop -/

/-- The descriptors of a daemon that waits for requests at `s`; `base` is what it was
started with. -/
structure Serving (options : Options) (base : Fds) (server : Server) (s : ℕ) : Prop where
  sock : server.sock = s
  listening : server.fds.get s = some .requests
  below : ∀ k < s, server.fds.get k ≠ none
  standard : server.fds.get 1 ≠ none ∧ server.fds.get 2 ≠ none
  zero : if options.background then s = 0 else 3 ≤ s
  rest : ∀ k ≥ 3, base.get k = if k = s then none else server.fds.get k

/-- What a daemon needs of its invoker. -/
structure Startable (options : Options) (base : Fds) : Prop where
  standard : base.get 1 ≠ none ∧ base.get 2 ≠ none
  zero : options.background = false → base.get 0 ≠ none

section Life

variable {options : Options} {base : Fds} {server : Server} {s : ℕ}

/-- The descriptors when `main` opens its socket. -/
theorem prepared_get {o : StartAnswers} {t₁ t₂ : Fds} (hbase : Startable options base)
    (hlog : (if options.logfile then
        openLogfile o.log (if options.background then disassociate o.root base else base)
      else some (if options.background then disassociate o.root base else base)) = some t₁)
    (hconf : openConfiguration o.configuration t₁ = some t₂) (k : ℕ) :
    t₂.get k = if options.logfile = true ∧ (k = 1 ∨ k = 2) then some .log
      else if k = 0 ∧ options.background = true then none else base.get k := by
  obtain ⟨h₁, h₂⟩ := hbase.standard
  generalize ht : (if options.background = true then disassociate o.root base else base) = t at hlog
  have hget (k : ℕ) : t.get k = if k = 0 ∧ options.background = true then none else base.get k := by
    rw [← ht]
    split
    · next hback => rw [disassociate_get]; simp [hback]
    · next hback => simp [hback]
  rw [openConfiguration_get hconf, ← hget k]
  split at hlog
  · next hfile =>
      rw [openLogfile_get hlog (by rw [hget, if_neg (by simp)]; exact h₁)
        (by rw [hget, if_neg (by simp)]; exact h₂)]
      simp [hfile]
  · next hfile =>
      cases hlog
      simp [hfile]

theorem start_serving {o : StartAnswers} (hbase : Startable options base)
    (h : start options o base = some server) : ∃ s, Serving options base server s := by
  simp only [start, Option.bind_eq_some_iff] at h
  obtain ⟨t₁, hlog, t₂, hconf, h⟩ := h
  have hget := prepared_get hbase hlog hconf
  have hstandard (k : ℕ) (hk : k = 1 ∨ k = 2) : t₂.get k ≠ none := by
    obtain ⟨h₁, h₂⟩ := hbase.standard
    rw [hget]
    rcases hk with rfl | rfl <;> split <;> simp [h₁, h₂]
  have hother (k : ℕ) (hk : k ≠ 1 ∧ k ≠ 2) :
      t₂.get k = if k = 0 ∧ options.background = true then none else base.get k := by
    rw [hget, if_neg (by tauto)]
  split at h
  · exact absurd h (by simp)
  next hsock =>
  rw [passiveUDP, passivesock_of_nonneg (Int.not_lt.mp hsock)] at h
  cases h
  have hne (k : ℕ) (hk : k ≠ t₂.free) : (t₂.set t₂.free (some .requests)).get k = t₂.get k := by
    rw [Descriptors.get_set, if_neg hk]
  have hkept (k : ℕ) (hk : t₂.get k ≠ none) : (t₂.set t₂.free (some .requests)).get k ≠ none := by
    rwa [hne k (Ne.symm (Descriptors.free_ne hk))]
  refine ⟨t₂.free, rfl, by rw [Descriptors.get_set, if_pos rfl], fun k hk => ?_, ?_, ?_, fun k hk => ?_⟩
  · exact hkept k (Descriptors.get_of_lt_free hk)
  · exact ⟨hkept 1 (hstandard 1 (.inl rfl)), hkept 2 (hstandard 2 (.inr rfl))⟩
  · have hone := Descriptors.free_ne (hstandard 1 (.inl rfl))
    have htwo := Descriptors.free_ne (hstandard 2 (.inr rfl))
    split
    · next hback =>
        exact Descriptors.free_eq (by rw [hother 0 (by simp), if_pos ⟨rfl, hback⟩])
          fun k hk => absurd hk (Nat.not_lt_zero k)
    · next hfore =>
        have hzero : t₂.get 0 ≠ none := by
          rw [hother 0 (by simp), if_neg (by tauto)]
          exact hbase.zero (by simpa using hfore)
        have hzero := Descriptors.free_ne hzero
        omega
  · have hk' : t₂.get k = base.get k := by
      rw [hother k ⟨by omega, by omega⟩, if_neg (by omega)]
    split
    · next heq => rw [← hk', heq, Descriptors.get_free]
    · next hfree => rw [hne k hfree, hk']

/-- The connection gets the descriptor that the server's socket had. -/
theorem makeTCPConnection_fds {o : ChildAnswers} {n : ℕ} {tcp : ℤ} {t : Fds}
    (hserving : Serving options base server s)
    (h : server.makeTCPConnection o n = some (tcp, t)) :
    tcp = s ∧ ∀ k, t.get k = if k = s then some (.connection n)
      else if k = server.fds.free then none else server.fds.get k := by
  unfold Server.makeTCPConnection at h
  dsimp only at h
  split at h
  · exact absurd h (by simp)
  next hlistener =>
  rw [passiveTCP, passivesock_of_nonneg (Int.not_lt.mp hlistener)] at h
  dsimp only at h
  split at h
  · exact absurd h (by simp)
  next haccept =>
  have hs : server.fds.free ≠ s := Descriptors.free_ne (by rw [hserving.listening]; simp)
  rw [hserving.sock] at h haccept
  generalize hu : (server.fds.set server.fds.free (some .listener)).close s = u at h haccept
  have hget (k : ℕ) : u.get k =
      if k = s then none else if k = server.fds.free then some .listener else server.fds.get k := by
    rw [← hu, Descriptors.get_close_natCast, Descriptors.get_set]
  have hfree : u.free = s := by
    refine Descriptors.free_eq (by rw [hget, if_pos rfl]) fun k hk => ?_
    rw [hget, if_neg hk.ne]
    split
    · simp
    · exact hserving.below k hk
  rw [Descriptors.alloc_of_nonneg (Int.not_lt.mp haccept), hfree] at h
  cases h
  refine ⟨rfl, fun k => ?_⟩
  rw [Descriptors.get_close_natCast, Descriptors.get_set, hget]
  grind

/-- **A connection program** has the connection at 1 and 2, and at 0 in the foreground
only; behind them it has what the daemon was started with. -/
theorem child_fds {o : ChildAnswers} {n : ℕ} {cdata : Condata} {p : Program}
    (hserving : Serving options base server s) (h : child o n cdata server = some p) (k : ℕ) :
    p.fds.get k =
      if k = 1 ∨ k = 2 then some (.connection n)
      else if k = 0 then if options.background then none else some (.connection n)
      else base.get k := by
  unfold child at h
  split at h
  · exact absurd h (by simp)
  next tcp t hmake =>
  obtain ⟨rfl, hget⟩ := makeTCPConnection_fds hserving hmake
  have htcp : t.get s = some (.connection n) := by rw [hget, if_pos rfl]
  -- each copy leaves the connection where it is
  have hdup {u : Fds} (hu : u.get s = some (.connection n)) (new : ℕ) :
      (u.dup2 s new).2.get s = some (.connection n) ∧ ∀ k, (u.dup2 s new).2.get k =
        if k = new then some (.connection n) else u.get k := by
    have hopen := Descriptors.get_dup2 (t := u) (n := s) (by simp [hu]) new
    refine ⟨?_, fun k => by rw [hopen, hu]⟩
    rw [hopen, hu]
    split <;> rfl
  obtain ⟨h₀, hget₀⟩ := hdup htcp 0
  obtain ⟨h₁, hget₁⟩ := hdup h₀ 1
  obtain ⟨h₂, hget₂⟩ := hdup h₁ 2
  dsimp only at h
  split at h
  · exact absurd h (by simp)
  split at h
  · exact absurd h (by simp)
  split at h
  · exact absurd h (by simp)
  cases h
  dsimp only
  rw [Descriptors.get_close_natCast, hget₂, hget₁, hget₀, hget]
  have hzero := hserving.zero
  have hfree : server.fds.get server.fds.free = none := Descriptors.get_free
  obtain ⟨hone, htwo⟩ := hserving.standard
  rcases Nat.lt_or_ge k 3 with hlt | hge
  · split at hzero <;> grind
  · have hrest := hserving.rest k hge
    split at hzero <;> grind

theorem execArgs_argv (cdata : Condata) :
    execArgs (argv cdata) = cdata.conprog :: cdata.progargs := by
  have hargs (args : List (List Byte)) (rest : List (Option (List Byte)))
      (hrest : execArgs rest = []) : execArgs (args.map some ++ rest) = args := by
    induction args with
    | nil => exact hrest
    | cons arg args ih => exact congrArg (arg :: ·) ih
  rw [argv, List.cons_append, List.cons_append, execArgs, List.append_assoc, hargs]
  cases maxNumberArgs - cdata.progargs.length <;> rfl

theorem child_program {o : ChildAnswers} {n : ℕ} {cdata : Condata} {p : Program}
    (h : child o n cdata server = some p) :
    p.path = cdata.conprog ∧ p.args = cdata.conprog :: cdata.progargs := by
  unfold child at h
  split at h
  · exact absurd h (by simp)
  dsimp only at h
  split at h
  · exact absurd h (by simp)
  split at h
  · exact absurd h (by simp)
  split at h
  · exact absurd h (by simp)
  cases h
  exact ⟨rfl, execArgs_argv cdata⟩

/-- A daemon that starts again is served by the same descriptors. -/
theorem reboot_serving {o : StartAnswers} {server' : Server}
    (hserving : Serving options base server s)
    (h : start options o (server.fds.close server.sock) = some server') :
    ∃ s', Serving options base server' s' := by
  rw [hserving.sock] at h
  have hclose : ∀ k, (server.fds.close s).get k = if k = s then none else server.fds.get k :=
    Descriptors.get_close_natCast s
  have hzero := hserving.zero
  obtain ⟨hone, htwo⟩ := hserving.standard
  have hstartable : Startable options (server.fds.close s) := by
    have hopen (k : ℕ) (hk : k = 1 ∨ k = 2) : (server.fds.close s).get k ≠ none := by
      rw [hclose, if_neg (by split at hzero <;> omega)]
      rcases hk with rfl | rfl
      · exact hone
      · exact htwo
    refine ⟨⟨hopen 1 (.inl rfl), hopen 2 (.inr rfl)⟩, fun hfore => ?_⟩
    rw [if_neg (by simp [hfore])] at hzero
    rw [hclose, if_neg (by omega)]
    exact hserving.below 0 (by omega)
  obtain ⟨s', hserving'⟩ := start_serving hstartable h
  refine ⟨s', { hserving' with rest := fun k hk => ?_ }⟩
  rw [hserving.rest k hk, ← hclose, hserving'.rest k hk]

/-- What `execv` was called for, and the descriptors it left. -/
structure Launched (options : Options) (base : Fds) (acts : List Act) (n : ℕ) (p : Program) :
    Prop where
  row : ∃ cdata o, .make n cdata o ∈ acts ∧ p.path = cdata.conprog ∧
    p.args = cdata.conprog :: cdata.progargs
  output : p.fds.get 1 = some (.connection n) ∧ p.fds.get 2 = some (.connection n)
  input : p.fds.get 0 = if options.background then none else some (.connection n)
  rest : ∀ k ≥ 3, p.fds.get k = base.get k

theorem Launched.mono {acts : List Act} {n : ℕ} {p : Program}
    (h : Launched options base acts n p) (act : Act) :
    Launched options base (acts ++ [act]) n p := by
  obtain ⟨cdata, o, hmem, hargs⟩ := h.row
  exact { h with row := ⟨cdata, o, List.mem_append_left _ hmem, hargs⟩ }

/-- All programs that a run of the daemon has started. -/
theorem launched_of_run {o : StartAnswers} (hbase : Startable options base)
    (hstart : start options o base = some server) {acts : List Act} {life : Life}
    (hrun : Run (fun s a s' => Life.step options s a = some s') ⟨server, []⟩ acts life) :
    (∃ s, Serving options base life.server s) ∧
      ∀ n p, (n, p) ∈ life.programs → Launched options base acts n p := by
  refine hrun.invariant_past (J := fun acts life => (∃ s, Serving options base life.server s) ∧
    ∀ n p, (n, p) ∈ life.programs → Launched options base acts n p) ?_ []
    ⟨start_serving hbase hstart, by simp⟩
  rintro past life act life' ⟨⟨s, hserving⟩, hprograms⟩ hstep
  cases act with
  | make n cdata o =>
      cases hstep
      refine ⟨⟨s, hserving⟩, fun n' p hp => ?_⟩
      rcases List.mem_append.mp hp with hp | hp
      · exact (hprograms n' p hp).mono _
      · obtain ⟨q, hq, heq⟩ := List.mem_map.mp hp
        cases heq
        have hchild := Option.mem_toList.mp hq
        have hfds := child_fds hserving hchild
        refine ⟨⟨cdata, o, by simp, child_program hchild⟩, ⟨hfds 1, hfds 2⟩, hfds 0, fun k hk => ?_⟩
        rw [hfds, if_neg (by omega), if_neg (by omega)]
  | reboot o =>
      obtain ⟨server', hstart', rfl⟩ := Option.map_eq_some_iff.mp hstep
      exact ⟨reboot_serving hserving hstart', fun n p hp => (hprograms n p hp).mono _⟩

/-- **The programs of a daemon's life**, however often it starts again. Each was called
with the words of its row; it has its own connection at 1 and 2, no other one, and none
of the daemon's sockets. At 0 it has the connection too, unless the daemon runs in the
background, as it does without options: then 0 is closed. -/
theorem programs_launched {o : StartAnswers} (hbase : Startable options base)
    (hstart : start options o base = some server) {acts : List Act} {life : Life}
    (hrun : Run (fun s a s' => Life.step options s a = some s') ⟨server, []⟩ acts life) {n : ℕ}
    {p : Program} (hp : (n, p) ∈ life.programs) : Launched options base acts n p :=
  (launched_of_run hbase hstart hrun).2 n p hp

end Life

def willingSocket : PassiveAnswers := ⟨true, true, true, true⟩

def willingStart : StartAnswers := ⟨true, true, true, willingSocket⟩

/-- The descriptors a shell gives. -/
def shell : Fds := ⟨[some (.inherited 0), some (.inherited 1), some (.inherited 2)]⟩

/-- A daemon without options that started again before it served `argo`. -/
theorem programs_launched_argo :
    ∃ server life p, start .initial willingStart shell = some server ∧
      Run (fun s a s' => Life.step .initial s a = some s') ⟨server, []⟩
        [.reboot willingStart, .make 0 argo ⟨willingSocket, true⟩] life ∧
      (0, p) ∈ life.programs ∧ p.fds.get 0 = none := by
  have hbase : Startable .initial shell :=
    ⟨⟨by simp [shell, Descriptors.get], by simp [shell, Descriptors.get]⟩, nofun⟩
  have hrun : ∃ server, start .initial willingStart shell = some server ∧ ∃ life,
      Run (fun s a s' => Life.step .initial s a = some s') ⟨server, []⟩
        [.reboot willingStart, .make 0 argo ⟨willingSocket, true⟩] life ∧
      ∃ p, (0, p) ∈ life.programs :=
    ⟨_, rfl, _, .cons rfl (.cons rfl (.nil _)), _, List.mem_singleton_self _⟩
  obtain ⟨server, hstart, life, hrun, p, hp⟩ := hrun
  exact ⟨server, life, p, hstart, hrun, hp, (programs_launched hbase hstart hrun hp).input⟩

/-! ### tty-connect -/

/-- `OpenTTYLine` for the descriptors. -/
def openTTYLine («open» tcgetattr tcsetattr : Bool) (t : Fds) : ℤ × Fds :=
  let (devfd, t) := t.alloc «open» .tty
  if devfd < 0 then (-1, t)
  else if tcgetattr = false then (-1, t.close devfd)
  else if tcsetattr = false then (-1, t.close devfd)
  else (devfd, t)

/-- It answers what the model without a table answers where `open` takes the lowest
descriptor. -/
theorem openTTYLine_fst (opens tcgetattr tcsetattr : Bool) (t : Fds) (fds : List ℕ) :
    (openTTYLine opens tcgetattr tcsetattr t).1 =
      (Powerd.openTTYLine ⟨if opens then some t.free else none, tcgetattr, tcsetattr⟩ fds).1 := by
  have hfree : ¬(t.free : ℤ) < 0 := Int.not_lt.mpr (Int.natCast_nonneg _)
  cases opens <;> cases tcgetattr <;> cases tcsetattr <;>
    simp [openTTYLine, Powerd.openTTYLine, Descriptors.alloc, hfree]

/-- **What tty-connect talks to** when the daemon called it: it writes to the
connection, but in the background it reads the tty where it means to read the keyboard,
since the tty was opened at descriptor 0. -/
theorem tty_connect_streams {options : Options} {base : Fds} {server : Server} {o : StartAnswers}
    (hbase : Startable options base) (hstart : start options o base = some server)
    {acts : List Act} {life : Life}
    (hrun : Run (fun s a s' => Life.step options s a = some s') ⟨server, []⟩ acts life) {n : ℕ}
    {p : Program} (hp : (n, p) ∈ life.programs) {opens tcgetattr tcsetattr : Bool} {dev : ℤ}
    {t : Fds} (hline : openTTYLine opens tcgetattr tcsetattr p.fds = (dev, t)) (hdev : 0 ≤ dev) :
    t.get dev.toNat = some .tty ∧ t.get 1 = some (.connection n) ∧
      t.get 0 = (if options.background then some .tty else some (.connection n)) ∧
      (dev = 0 ↔ options.background = true) := by
  obtain ⟨-, ⟨hone, htwo⟩, hzero, -⟩ := (launched_of_run hbase hstart hrun).2 n p hp
  have hopen : dev = p.fds.free ∧ t = p.fds.set p.fds.free (some .tty) := by
    unfold openTTYLine at hline
    dsimp only at hline
    split at hline
    · cases hline
      exact absurd hdev (by norm_num)
    next hneg =>
    split at hline
    · cases hline
      exact absurd hdev (by norm_num)
    split at hline
    · cases hline
      exact absurd hdev (by norm_num)
    · rw [Descriptors.alloc_of_nonneg (Int.not_lt.mp hneg)] at hline
      cases hline
      exact ⟨rfl, rfl⟩
  obtain ⟨rfl, rfl⟩ := hopen
  have hne := Descriptors.free_ne (t := p.fds) (k := 1) (by simp [hone])
  simp only [Int.toNat_natCast, Descriptors.get_set, if_neg (Ne.symm hne)]
  refine ⟨by simp, hone, ?_⟩
  cases hback : options.background with
  | true =>
      rw [hback, if_pos rfl] at hzero
      have hfree : p.fds.free = 0 :=
        Descriptors.free_eq hzero fun k hk => absurd hk (Nat.not_lt_zero k)
      simp [hfree]
  | false =>
      rw [hback, if_neg (by simp)] at hzero
      have hfree := Descriptors.free_ne (t := p.fds) (k := 0) (by simp [hzero])
      simp [hzero, hfree, Ne.symm hfree]

/-- tty-connect of `argo`, for a daemon without options. -/
theorem tty_connect_streams_argo :
    ∃ server life p t, start .initial willingStart shell = some server ∧
      Run (fun s a s' => Life.step .initial s a = some s') ⟨server, []⟩
        [.make 0 argo ⟨willingSocket, true⟩] life ∧ (0, p) ∈ life.programs ∧
      openTTYLine true true true p.fds = (0, t) ∧ t.get 0 = some .tty := by
  have hbase : Startable .initial shell :=
    ⟨⟨by simp [shell, Descriptors.get], by simp [shell, Descriptors.get]⟩, nofun⟩
  have hrun : ∃ server, start .initial willingStart shell = some server ∧ ∃ life,
      Run (fun s a s' => Life.step .initial s a = some s') ⟨server, []⟩
        [.make 0 argo ⟨willingSocket, true⟩] life ∧
      ∃ p, (0, p) ∈ life.programs ∧ ∃ t, openTTYLine true true true p.fds = (0, t) :=
    ⟨_, rfl, _, .cons rfl (.nil _), _, List.mem_singleton_self _, _, rfl⟩
  obtain ⟨server, hstart, life, hrun, p, hp, t, ht⟩ := hrun
  exact ⟨server, life, p, t, hstart, hrun, hp, ht,
    (tty_connect_streams hbase hstart hrun hp ht le_rfl).2.2.1⟩

end XinuConsole.Consoled
