import XinuConsole.Connectsock
import XinuConsole.Correlation.Network
import XinuConsole.Lib.Descriptors
import XinuConsole.Lib.Machine
import XinuConsole.ObtainStatus
import XinuConsole.Searching
import XinuConsole.SocketReuse

/-!
The descriptors of a client, from `connectsock` up to `makeConnection`.

The programs of `MakeConnection`, `ReqGeneric` and `Netutils` are run on top of each
other on the descriptor table of one process. Whatever is answered, a search leaves
nothing behind but the socket that `reqGeneric` keeps and the connection it returns.
-/

namespace XinuConsole.Sockets

open Lib Netutils ReqGeneric

variable {Sockaddr : Type}

/-- What a descriptor of a client refers to. -/
inductive Handle (Sockaddr : Type)
  | inherited (n : ℕ)
  | status
  | socket (type : SockType) (peer : Option (Sockaddr × ℤ))
  | file (name : List Byte)

abbrev Fds (Sockaddr : Type) := Descriptors (Handle Sockaddr)

/-- A socket for requests to the daemons. -/
def Handle.request (addr : Sockaddr) (csPort : ℤ) : Handle Sockaddr :=
  .socket .dgram (some (addr, csPort))

def Handle.connection (addr : Sockaddr) (port : ℤ) : Handle Sockaddr :=
  .socket .stream (some (addr, port))

/-- What a call of the system does to the descriptors; `names` are the addresses that
the resolver has for a name. -/
def Kernel (names : List Byte → Sockaddr → Prop) (t : Fds Sockaddr) :
    Answered (NetOp ℕ Sockaddr) (@NetRes ℕ Sockaddr) → Fds Sockaddr → Prop
  | ⟨.gethostbyname host, r⟩, t' => t' = t ∧ ∀ addr, r = some addr → names host addr
  | ⟨.inetAddr host, r⟩, t' => t' = t ∧ ∀ addr, r = some addr → names host addr
  | ⟨.getprotobyname _, _⟩, t' => t' = t
  | ⟨.socket type _, r⟩, t' =>
      (r = none ∧ t' = t) ∨ (r = some t.free ∧ t' = t.push (.socket type none))
  | ⟨.connect s addr port, r⟩, t' =>
      if r = true then
        ∃ type, t.get s = some (.socket type none) ∧
          t' = t.set s (some (.socket type (some (addr, port))))
      else t' = t
  | ⟨.close s, _⟩, t' => t' = t.close s
  | ⟨.send _ _, _⟩, t' => t' = t
  | ⟨.recv _, _⟩, t' => t' = t

/-- `connectTCP`. -/
def connectTCP (host : List Byte) (service : ℤ) : NetProg ℕ Sockaddr (Option ℕ) :=
  connectsock host service (text "tcp")

/-! ### One socket -/

section Connectsock

variable {names : List Byte → Sockaddr → Prop} {t t' : Fds Sockaddr}

/-- Either nothing is open that was not open before, or one socket more, connected to
an address of the host. -/
inductive Opens (names : List Byte → Sockaddr → Prop) (host : List Byte) (service : ℤ)
    (type : SockType) (t : Fds Sockaddr) : Option ℕ → Fds Sockaddr → Prop
  | failed {t' : Fds Sockaddr} : t'.Agrees t → Opens names host service type t none t'
  | opened {t' : Fds Sockaddr} (addr : Sockaddr) : names host addr →
      t'.Agrees (t.push (.socket type (some (addr, service)))) →
      Opens names host service type t (some t.free) t'

theorem hostAddr_fds {host : List Byte} {r : Option Sockaddr}
    (h : Prog.On (Kernel names) t (hostAddr host) r t') :
    t' = t ∧ ∀ addr, r = some addr → names host addr := by
  obtain ⟨named, u, ⟨rfl, hnamed⟩, h₁⟩ := Prog.on_perform_bind.mp h
  cases named with
  | some addr =>
      obtain ⟨rfl, rfl⟩ := Prog.on_ret.mp h₁
      exact ⟨rfl, hnamed⟩
  | none =>
      obtain ⟨rfl, hdotted⟩ := Prog.on_perform.mp h₁
      exact ⟨rfl, hdotted⟩

theorem connectsock_fds {host : List Byte} {service : ℤ} {protocol : List Byte} (type : SockType)
    (htype : (if cstr protocol = text "udp" then SockType.dgram else .stream) = type) {r : Option ℕ}
    (h : Prog.On (Kernel names) t (connectsock host service protocol) r t') :
    Opens names host service type t r t' := by
  obtain ⟨resolved, u, hresolve, h₁⟩ := Prog.on_bind.mp h
  obtain ⟨rfl, haddr⟩ := hostAddr_fds hresolve
  cases resolved with
  | none =>
      obtain ⟨rfl, rfl⟩ := Prog.on_ret.mp h₁
      exact .failed (.refl _)
  | some addr =>
      obtain ⟨proto, u, rfl, h₂⟩ := Prog.on_perform_bind.mp h₁
      cases proto with
      | none =>
          obtain ⟨rfl, rfl⟩ := Prog.on_ret.mp h₂
          exact .failed (.refl _)
      | some proto =>
          obtain ⟨made, u, ⟨rfl, rfl⟩ | ⟨rfl, rfl⟩, h₃⟩ := Prog.on_perform_bind.mp h₂
          · obtain ⟨rfl, rfl⟩ := Prog.on_ret.mp h₃
            exact .failed (.refl _)
          · obtain ⟨ok, u, hok, h₄⟩ := Prog.on_perform_bind.mp h₃
            cases ok with
            | true =>
                obtain ⟨type', hsocket, rfl⟩ := hok
                obtain ⟨rfl, rfl⟩ := Prog.on_ret.mp h₄
                rw [Descriptors.get_push, if_pos rfl, htype] at hsocket
                cases hsocket
                exact .opened addr (haddr addr rfl) (htype ▸ Descriptors.set_push _ _ _)
            | false =>
                obtain rfl := (hok : u = _)
                obtain ⟨_, u, rfl, h₅⟩ := Prog.on_perform_bind.mp h₄
                obtain ⟨rfl, rfl⟩ := Prog.on_ret.mp h₅
                exact .failed (Descriptors.close_push _ _)

end Connectsock

/-! ### The calls of a client -/

/-- `statusrequest` on the descriptors: the socket it returns. -/
def statusrequest (w : ObtainStatus.Surroundings) (host : Option (List Byte))
    (stack : Slots InAddr maxNets) (t : Fds Sockaddr) : Option (ℤ × Fds Sockaddr) :=
  let (sock, t) := t.alloc w.socket .status
  if sock < 0 then some (-1, t)
  else if w.bind = false then some (-1, t.close sock)
  else if w.rcvbuf = false then some (-1, t.close sock)
  else do
    let servers ← ObtainStatus.serverNames w host
    let bcast := if servers ≠ [] then (ObtainStatus.fakemulticast w servers).2 else true
    if bcast then do
      let (status, _) ← bcastUDP w.broadcast w.ifconf stack w.sent
      some (if status < 0 then (-1, t.close sock) else (sock, t))
    else some (sock, t)

/-- The process of a client: its descriptors, and the static variables of
`reqGeneric`. -/
structure Process (Sockaddr : Type) where
  fds : Fds Sockaddr
  static : Static ℕ

def Process.start (base : Fds Sockaddr) : Process Sockaddr := ⟨base, .initial⟩

/-- A descriptor, as C returns it. -/
def descriptor : Option ℕ → ℤ
  | some fd => fd
  | none => -1

/-- How the calls of `makeConnection` are answered in a process. -/
def Process.Serves (names : List Byte → Sockaddr → Prop) (csPort : ℤ) (p : Process Sockaddr) :
    Answered MakeConnection.Op MakeConnection.Res → Process Sockaddr → Prop
  | ⟨.obtainStatus _ _ host, replies⟩, p' =>
      p'.static = p.static ∧ ∃ w stack fresh arriving cnt sock t,
        statusrequest w host stack p.fds = some (sock, t) ∧
        ObtainStatus.obtainStatus w host stack fresh arriving cnt = some (some replies) ∧
        p'.fds = t.close sock
  | ⟨.reqGeneric connection cls host code, reply⟩, p' =>
      ∃ inv : Invocation, inv.connection = some connection ∧ inv.cls = some cls ∧
        inv.host = host ∧ inv.code = code ∧
        Prog.On (Kernel names) p.fds (Prog.interp (wire csPort) (inv.program p.static))
          (reply, p'.static) p'.fds
  | ⟨.connectTCP host port, fd⟩, p' =>
      p'.static = p.static ∧ ∃ r, fd = descriptor r ∧
        Prog.On (Kernel names) p.fds (connectTCP host port) r p'.fds
  | ⟨.rand, _⟩, p' => p' = p
  | ⟨.usleep _, _⟩, p' => p' = p
  | ⟨.undefined, _⟩, _ => False

/-- What a process owns that has no connection: what it was started with, and the
socket of `reqGeneric` if there is one. -/
inductive Owns (csPort : ℤ) (base : Fds Sockaddr) : Process Sockaddr → Prop
  | nothing {p : Process Sockaddr} : p.static.sock = none → p.fds.Agrees base → Owns csPort base p
  | request {p : Process Sockaddr} (addr : Sockaddr) : p.static.sock = some base.free →
      p.fds.Agrees (base.push (.request addr csPort)) → Owns csPort base p

section Calls

variable {names : List Byte → Sockaddr → Prop} {csPort : ℤ} {base t t' : Fds Sockaddr}
  {p p' : Process Sockaddr}

/-- It returns a socket where `ObtainStatus.statusrequest` says so. -/
theorem statusrequest_ok (w : ObtainStatus.Surroundings) (host : Option (List Byte))
    (stack : Slots InAddr maxNets) (t : Fds Sockaddr) :
    (statusrequest w host stack t).map (fun r => decide (0 ≤ r.1)) =
      (ObtainStatus.statusrequest w host stack).map Prod.fst := by
  unfold statusrequest ObtainStatus.statusrequest
  cases hsocket : w.socket with
  | false => rfl
  | true =>
      have hnonneg : ¬((t.free : ℤ) < 0) := by omega
      rw [Descriptors.alloc, if_pos rfl]
      dsimp only
      rw [if_neg hnonneg]
      cases w.bind with
      | false => rfl
      | true =>
          cases w.rcvbuf with
          | false => rfl
          | true =>
              simp only [Bool.true_eq_false, if_false, or_self]
              cases ObtainStatus.serverNames w host with
              | none => rfl
              | some servers =>
                  simp only [Option.bind_eq_bind, Option.bind_some]
                  have hsnd :
                      (if servers ≠ [] then (ObtainStatus.fakemulticast w servers).2 else true) =
                        (if servers ≠ [] then ObtainStatus.fakemulticast w servers
                          else ([], true)).2 := by
                    split <;> rfl
                  rw [hsnd]
                  generalize (if servers ≠ [] then ObtainStatus.fakemulticast w servers
                    else ([], true)) = multicast
                  obtain ⟨sent, bcast⟩ := multicast
                  cases bcast with
                  | false =>
                      show some (decide (0 ≤ (t.free : ℤ))) = some true
                      rw [decide_eq_true (Int.natCast_nonneg _)]
                  | true =>
                      simp only [if_true]
                      cases bcastUDP w.broadcast w.ifconf stack w.sent with
                      | none => rfl
                      | some result =>
                          obtain ⟨status, nets⟩ := result
                          simp only [Option.bind_some, Option.map_some]
                          split
                          · next hneg => simp [Int.not_le.mpr hneg]
                          · next hpos => simp [Int.not_lt.mp hpos]

theorem statusrequest_close {w : ObtainStatus.Surroundings} {host : Option (List Byte)}
    {stack : Slots InAddr maxNets} {sock : ℤ} (h : statusrequest w host stack t = some (sock, t')) :
    (t'.close sock).Agrees t := by
  have hclosed : ∀ k,
      ((t.alloc w.socket .status).2.close (t.alloc w.socket .status).1).get k = t.get k :=
    Descriptors.get_close_alloc
  unfold statusrequest at h
  dsimp only at h
  split at h
  · next hneg =>
      cases h
      rw [Descriptors.alloc_of_neg hneg]
      exact .refl t
  split at h
  · cases h
    exact hclosed
  split at h
  · cases h
    exact hclosed
  simp only [Option.bind_eq_bind, Option.bind_eq_some_iff] at h
  obtain ⟨servers, -, h⟩ := h
  generalize (if servers ≠ [] then (ObtainStatus.fakemulticast w servers).2 else true) = bcast at h
  cases bcast with
  | false =>
      cases h
      exact hclosed
  | true =>
      obtain ⟨⟨status, nets⟩, -, h⟩ := Option.bind_eq_some_iff.mp h
      dsimp only at h
      split at h
      · cases h
        exact hclosed
      · cases h
        exact hclosed

/-- Without the cached socket a process is as it was started. -/
theorem closing_fds {st : Static ℕ} (howns : Owns csPort base ⟨t, st⟩)
    (hrun : Run (Prog.Above (wire csPort) (Kernel names)) t (closing st) t') : t'.Agrees base := by
  rw [closing] at hrun
  cases howns with
  | nothing hsock hfds =>
      rw [show st.sock = none from hsock] at hrun
      cases hrun
      exact hfds
  | request addr hsock hfds =>
      rw [show st.sock = some base.free from hsock] at hrun
      cases hrun with
      | cons hclose hrest =>
          cases hrest
          obtain rfl : _ = t.close base.free := Prog.on_perform.mp hclose
          exact (Descriptors.Agrees.close hfds _).trans (Descriptors.close_push _ _)

/-- The socket of `reqGeneric` for one host or another: it is always the lowest
descriptor that the process was started without. -/
theorem obtains_owns {st st' : Static ℕ} {host : List Byte} {before : Talk ℕ}
    (howns : Owns csPort base ⟨t, st⟩) (hobtains : Obtains st host before st')
    (hrun : Run (Prog.Above (wire csPort) (Kernel names)) t before t') :
    Owns csPort base ⟨t', st'⟩ := by
  cases hobtains with
  | kept =>
      cases hrun
      exact howns
  | replaced r =>
      obtain ⟨u, hclosing, hconnect⟩ := hrun.split
      have hu : u.Agrees base := closing_fds howns hclosing
      cases hconnect with
      | cons hopens hrest =>
          cases hrest
          cases connectsock_fds .dgram rfl hopens with
          | failed hfds => exact .nothing rfl (hfds.trans hu)
          | opened addr _ hfds =>
              exact .request addr (congrArg some hu.free) (hfds.trans (hu.push _))

/-- Sending and receiving open nothing. -/
theorem exchange_fds {bytes : List Byte} {sock : Option ℕ} {after : Talk ℕ}
    (hexchange : Exchange bytes sock after)
    (hrun : Run (Prog.Above (wire csPort) (Kernel names)) t after t') : t' = t := by
  have hsend {sock : ℕ} {r : Bool} {u : Fds Sockaddr}
      (h : Prog.Above (wire csPort) (Kernel names) t ⟨.send sock bytes, r⟩ u) : u = t :=
    Prog.on_perform.mp h
  cases hexchange with
  | refused =>
      cases hrun
      rfl
  | unsent sock =>
      cases hrun with
      | cons hsent hrest =>
          cases hrest
          exact hsend hsent
  | sent sock r =>
      cases hrun with
      | cons hsent hrest =>
          obtain rfl := hsend hsent
          cases hrest with
          | cons hreceived hrest =>
              cases hrest
              exact Prog.on_perform.mp hreceived

/-- A reply comes on a socket. -/
theorem sock_of_reply {inv : Invocation} {st st' : Static ℕ} {reply : Reply} {w : Talk ℕ}
    (h : Prog.Runs (inv.program st) w (some reply, st')) : st'.sock ≠ none := by
  intro hnone
  obtain ⟨before, after, rfl, hobtains, hexchange⟩ := callStep_cases ⟨_, h⟩
  rw [hnone] at hexchange
  cases hexchange
  obtain ⟨w', sock, dgram, hlast, -⟩ := (h.post (reqGeneric_spec ..)).accepted reply rfl
  have hmem : ⟨.recv sock, some dgram⟩ ∈ before := by
    rw [List.nil_append, List.append_nil] at hlast
    rw [hlast]
    exact List.mem_append_right _ (List.mem_singleton.mpr rfl)
  rcases hobtains.mem hmem with ⟨s, hs⟩ | hconnect
  · cases hs
  · cases hconnect

theorem reqGeneric_owns {inv : Invocation} {reply : Option Reply} (howns : Owns csPort base p)
    (h : Prog.On (Kernel names) p.fds (Prog.interp (wire csPort) (inv.program p.static))
      (reply, p'.static) p'.fds) :
    Owns csPort base p' ∧ (reply ≠ none → p'.static.sock ≠ none) := by
  obtain ⟨w, hruns, hrun⟩ := h.above
  refine ⟨?_, fun hreply => ?_⟩
  · obtain ⟨before, after, rfl, hobtains, hexchange⟩ := callStep_cases ⟨reply, hruns⟩
    obtain ⟨u, hbefore, hafter⟩ := hrun.split
    have hu := obtains_owns howns hobtains hbefore
    rwa [← exchange_fds hexchange hafter] at hu
  · obtain ⟨reply, rfl⟩ := Option.ne_none_iff_exists'.mp hreply
    exact sock_of_reply hruns

/-- A call that does not return a connection. -/
theorem Owns.step {call : Answered MakeConnection.Op MakeConnection.Res}
    (howns : Owns csPort base p) (hserves : p.Serves names csPort call p')
    (hcall : ∀ host port fd, call = ⟨.connectTCP host port, fd⟩ → fd < 0) :
    Owns csPort base p' := by
  have hsame (hstatic : p'.static = p.static) (hfds : p'.fds.Agrees p.fds) :
      Owns csPort base p' := by
    cases howns with
    | nothing hsock hbase => exact .nothing (hstatic ▸ hsock) (hfds.trans hbase)
    | request addr hsock hbase => exact .request addr (hstatic ▸ hsock) (hfds.trans hbase)
  obtain ⟨op, r⟩ := call
  cases op with
  | obtainStatus connection cls host =>
      obtain ⟨hstatic, w, stack, fresh, arriving, cnt, sock, t, hstatus, -, hfds⟩ := hserves
      exact hsame hstatic (hfds ▸ statusrequest_close hstatus)
  | reqGeneric connection cls host code =>
      obtain ⟨inv, -, -, -, -, hon⟩ := hserves
      exact (reqGeneric_owns howns hon).1
  | connectTCP host port =>
      obtain ⟨hstatic, made, hfd, hon⟩ := hserves
      have hneg : r < 0 := hcall host port r rfl
      cases connectsock_fds .stream rfl hon with
      | failed hfds => exact hsame hstatic hfds
      | opened => exact absurd hneg (hfd ▸ Int.not_lt.mpr (Int.natCast_nonneg _))
  | rand => exact hserves ▸ howns
  | usleep usec => exact hserves ▸ howns
  | undefined => exact hserves.elim

theorem owns_start (csPort : ℤ) (base : Fds Sockaddr) : Owns csPort base (.start base) :=
  .nothing rfl (.refl base)

/-- As long as nothing that was dialled has answered. -/
theorem Owns.run {h : MakeConnection.History} (hrun : Run (Process.Serves names csPort) p h p')
    (howns : Owns csPort base p) (hu : MakeConnection.Unconnected h) : Owns csPort base p' :=
  hrun.invariant_of_labels (I := fun _ => True)
    (P := fun call => ∀ host port fd, call = ⟨.connectTCP host port, fd⟩ → fd < 0)
    (fun _ _ _ _ _ => trivial) (fun _ _ _ _ howns hcall hserves => howns.step hserves hcall)
    (fun _ hcall host port fd heq => hu host port fd (heq ▸ hcall)) trivial howns

/-! ### A search that is answered at once -/

theorem connectsock_answered {host : List Byte} {addr : Sockaddr} (haddr : names host addr)
    (service : ℤ) (protocol : List Byte) (t : Fds Sockaddr) :
    ∃ t', Prog.On (Kernel names) t (connectsock host service protocol) (some t.free) t' := by
  have hnamed : Prog.On (Kernel names) t (hostAddr host) (some addr) t := by
    refine Prog.on_perform_bind.mpr ⟨some addr, t, ⟨rfl, ?_⟩, Prog.on_ret.mpr ⟨rfl, rfl⟩⟩
    intro addr' heq
    exact Option.some.inj heq ▸ haddr
  let type : SockType := if cstr protocol = text "udp" then .dgram else .stream
  refine ⟨(t.push (.socket type none)).set t.free (some (.socket type (some (addr, service)))), ?_⟩
  rw [connectsock, Prog.on_bind]
  refine ⟨some addr, t, hnamed, ?_⟩
  refine Prog.on_perform_bind.mpr ⟨some 17, t, rfl, ?_⟩
  refine Prog.on_perform_bind.mpr ⟨some t.free, _, .inr ⟨rfl, rfl⟩, ?_⟩
  refine Prog.on_perform_bind.mpr ⟨true, _, ⟨_, ?_, rfl⟩, Prog.on_ret.mpr ⟨rfl, rfl⟩⟩
  rw [Descriptors.get_push, if_pos rfl]

theorem reqGeneric_answered {inv : Invocation} {addr : Sockaddr} (haddr : names inv.host addr)
    {dgram : List Byte} {reply : Reply}
    (haccept : accept inv.stack (some dgram) inv.reply = some reply) (csPort : ℤ)
    (t : Fds Sockaddr) :
    ∃ st' t', Prog.On (Kernel names) t (Prog.interp (wire csPort) (inv.program .initial))
      (some reply, st') t' := by
  obtain ⟨t', hconnect⟩ := connectsock_answered haddr csPort (text "udp") t
  let st : Static ℕ := ⟨some t.free,
    ((CharArray.zero maxHostName).strncpy inv.host maxHostName).set (maxHostName - 1) 0⟩
  refine ⟨st, t', ?_⟩
  rw [Invocation.program, reqGeneric, Prog.interp_bind, Prog.on_bind]
  refine ⟨st, t', ?_, ?_⟩
  · show Prog.On (Kernel names) t (Prog.interp (wire csPort) (newSocket .initial inv.host)) _ t'
    rw [newSocket, Prog.interp_bind, Prog.interp_perform]
    exact Prog.on_bind.mpr ⟨some t.free, t', hconnect, Prog.on_ret.mpr ⟨rfl, rfl⟩⟩
  · refine Prog.on_call.mpr ⟨true, t', rfl, ?_⟩
    refine Prog.on_call.mpr ⟨some dgram, t', rfl, ?_⟩
    exact Prog.on_ret.mpr ⟨by rw [haccept], rfl⟩

theorem exists_accepted (stack : Mem) (prior : Reply) :
    ∃ dgram reply, accept stack (some dgram) prior = some reply := by
  have hempty : (0 : Byte) ∉ [] := List.not_mem_nil
  let dgram := Consoled.serverReplyMesg prior [] respOk []
  obtain ⟨hret, hcode, -⟩ :=
    Correlation.recvfromReply_mesg stack prior prior [] respOk hempty (by decide)
  refine ⟨dgram, (ConnectUtils.recvfromReply stack (some dgram) prior).reply, ?_⟩
  rw [accept, hret, hcode]
  rfl

/-- All three names are given, and every call succeeds. -/
theorem direct_answered {connection : CharArray maxConnectionName} {cls : CharArray maxClassName}
    {host : CharArray maxHostName} (hdirect : MakeConnection.nonempty (some host) = true ∧
      MakeConnection.nonempty (some connection) = true ∧ MakeConnection.nonempty (some cls) = true)
    {addr : Sockaddr} (haddr : names host.val addr) (envClass : Option (List Byte))
    (user : List Byte) (stack : CharArray maxClassName) (getserial2 csPort : ℤ)
    (base : Fds Sockaddr) :
    ∃ h r p, Prog.Runs (MakeConnection.makeConnection envClass user stack
        ⟨some connection, some cls, some host⟩ getserial2) h r ∧
      Run (Process.Serves names csPort) (.start base) h p ∧ 0 ≤ r.1 ∧
      r.2 = ⟨some connection, some cls, some host⟩ := by
  let inv : Invocation := ⟨⟨0, 0, CharArray.zero _, CharArray.zero _, CharArray.zero _⟩, user,
    fun _ => 0, ⟨0, 0, CharArray.zero _, CharArray.zero _, fun _ => 0⟩, some connection.val,
    some cls.val, host.val, reqMakeConnection⟩
  obtain ⟨dgram, reply, haccept⟩ := exists_accepted inv.stack inv.reply
  have hinv : names inv.host addr := haddr
  obtain ⟨st, t, hasked⟩ := reqGeneric_answered hinv haccept csPort base
  obtain ⟨t', hdialled⟩ := connectsock_answered haddr (atoi (reply.details.read 0 maxDetails))
    (text "tcp") t
  have hcalled : MakeConnection.makeConnection envClass user stack
    ⟨some connection, some cls, some host⟩ getserial2 = _ := if_pos hdirect
  refine ⟨[⟨.reqGeneric connection.val cls.val host.val reqMakeConnection, some reply⟩,
      ⟨.connectTCP host.val (atoi (reply.details.read 0 maxDetails)), (t.free : ℤ)⟩],
    (t.free, ⟨some connection, some cls, some host⟩), ⟨t', st⟩, ?_, ?_, Int.natCast_nonneg _, rfl⟩
  · rw [hcalled]
    refine MakeConnection.runs_call (.reqGeneric ..) (some reply) ?_
    exact MakeConnection.runs_call (.connectTCP ..) (t.free : ℤ) (.ret _)
  have hgranted : Process.Serves names csPort (.start base)
      ⟨.reqGeneric connection.val cls.val host.val reqMakeConnection, some reply⟩ ⟨t, st⟩ :=
    ⟨inv, rfl, rfl, rfl, rfl, hasked⟩
  have hconnected : Process.Serves names csPort ⟨t, st⟩
      ⟨.connectTCP host.val (atoi (reply.details.read 0 maxDetails)), (t.free : ℤ)⟩ ⟨t', st⟩ :=
    ⟨rfl, some t.free, rfl, hdialled⟩
  exact .cons hgranted (.cons hconnected (.nil _))

/-! ### Every search -/

section Search

variable {envClass : Option (List Byte)} {user : List Byte} {stack : CharArray maxClassName}
  {b : MakeConnection.Buffers} {getserial2 : ℤ} {h : MakeConnection.History}
  {r : ℤ × MakeConnection.Buffers}

/-- What a process has open that has got its connection. -/
theorem fds_of_connected
    (hruns : Prog.Runs (MakeConnection.makeConnection envClass user stack b getserial2) h r)
    (hrun : Run (Process.Serves names csPort) (.start base) h p) (hfd : 0 ≤ r.1) :
    ∃ h₀ conname conclass host reply request addr,
      h = h₀ ++ [⟨.reqGeneric conname conclass host reqMakeConnection, some reply⟩,
        ⟨.connectTCP host (atoi (reply.details.read 0 maxDetails)), r.1⟩] ∧
      names host addr ∧ p.static.sock = some base.free ∧
      r.1 = (base.push (.request request csPort)).free ∧
      p.fds.Agrees ((base.push (.request request csPort)).push
        (.connection addr (atoi (reply.details.read 0 maxDetails)))) := by
  obtain ⟨h₀, conname, conclass, host, reply, hu, rfl⟩ := MakeConnection.connection_last hruns hfd
  obtain ⟨p₁, hsearched, hends⟩ := hrun.split
  have howns := (owns_start csPort base).run hsearched hu
  obtain ⟨fd, b'⟩ := r
  cases hends with
  | @cons _ p₂ _ _ _ hgranted hends =>
      cases hends with
      | cons hdialled hends =>
          cases hends
          obtain ⟨inv, -, -, -, -, hasked⟩ := hgranted
          obtain ⟨howns₂, hsock⟩ := reqGeneric_owns howns hasked
          obtain ⟨hstatic, made, hmade, hopens⟩ := hdialled
          cases connectsock_fds .stream rfl hopens with
          | failed => exact absurd hfd (by rw [hmade]; decide)
          | opened addr hnames hfds =>
              cases howns₂ with
              | nothing hnone => exact absurd hnone (hsock (by simp))
              | request request hsome hbase =>
                  refine ⟨h₀, conname, conclass, host, reply, request, addr, rfl, hnames,
                    hstatic ▸ hsome, ?_, hfds.trans (hbase.push _)⟩
                  rw [hmade, ← hbase.free]
                  rfl

/-- **A search leaves nothing behind.** Whatever is answered, a process that got no
connection has no descriptor open that it was not started with, the socket of
`reqGeneric` apart. One that got it has both, at the lowest descriptors that were free,
and the connection is to an address of the host that granted the row and to the port
that it named. -/
theorem makeConnection_sockets
    (hruns : Prog.Runs (MakeConnection.makeConnection envClass user stack b getserial2) h r)
    (hrun : Run (Process.Serves names csPort) (.start base) h p) :
    (r.1 < 0 → Owns csPort base p) ∧
      (0 ≤ r.1 → ∃ h₀ conname conclass host reply request addr,
        h = h₀ ++ [⟨.reqGeneric conname conclass host reqMakeConnection, some reply⟩,
          ⟨.connectTCP host (atoi (reply.details.read 0 maxDetails)), r.1⟩] ∧
        names host addr ∧ p.static.sock = some base.free ∧
        r.1 = (base.push (.request request csPort)).free ∧
        p.fds.Agrees ((base.push (.request request csPort)).push
          (.connection addr (atoi (reply.details.read 0 maxDetails))))) := by
  refine ⟨fun hneg => ?_, fds_of_connected hruns hrun⟩
  have hstart : MakeConnection.Unconnected [] := by simp [MakeConnection.Unconnected]
  refine (owns_start csPort base).run hrun ?_
  exact hruns.post
    (MakeConnection.makeConnection_searching hstart envClass user stack b getserial2) hneg

end Search

end Calls

/-- What a shell opens for its programs. -/
def standardFds : Fds InAddr :=
  ⟨[some (.inherited 0), some (.inherited 1), some (.inherited 2)]⟩

theorem first_standardFds : standardFds.First 3 := by
  intro k
  match k with
  | 0 | 1 | 2 => simp [standardFds, Descriptors.get]
  | k + 3 => simp [standardFds, Descriptors.get]

/-- A resolver that knows one address. -/
def oneHost (_ : List Byte) (addr : InAddr) : Prop := addr = 0x7F000001

/-- The connection and the socket of `reqGeneric` behind the standard descriptors. -/
theorem makeConnection_sockets_standard : ∃ (r : ℤ × MakeConnection.Buffers) (p : Process InAddr),
    r.1 = 4 ∧ p.static.sock = some 3 ∧ ∃ addr port, p.fds.get 4 = some (.connection addr port) := by
  let connection := (CharArray.zero maxConnectionName).strncpy (text "argo") (maxConnectionName - 1)
  let cls := (CharArray.zero maxClassName).strncpy (text "mips") (maxClassName - 1)
  let host := (CharArray.zero maxHostName).strncpy (text "xinu") (maxHostName - 1)
  have hdirect : MakeConnection.nonempty (some host) = true ∧
      MakeConnection.nonempty (some connection) = true ∧
      MakeConnection.nonempty (some cls) = true := by
    decide
  have haddr : oneHost host.val 0x7F000001 := rfl
  obtain ⟨h, r, p, hruns, hrun, hfd, -⟩ :=
    direct_answered hdirect haddr none [] (CharArray.zero _) 0 2024 standardFds
  obtain ⟨-, hconnected⟩ := makeConnection_sockets hruns hrun
  obtain ⟨_, _, _, _, reply, request, addr, -, -, hsock, hfree, hfds⟩ := hconnected hfd
  have hfirst := first_standardFds.push (.request request 2024)
  rw [hfirst.free] at hfree
  refine ⟨r, p, hfree, by rw [hsock, first_standardFds.free], addr,
    atoi (reply.details.read 0 maxDetails), ?_⟩
  rw [hfds, Descriptors.get_push, if_pos hfirst.free.symm]

end XinuConsole.Sockets
