import XinuConsole.Consoled.Session
import XinuConsole.MakeConnection
import XinuConsole.ReqGeneric
import XinuConsole.StatusRoundTrip

/-!
One client, its servers and the network between them.

The client makes calls of `reqGeneric`, one after the other, and the network
carries the requests and the replies. What is on its way is a list of tokens,
each with the number of the call it goes back to: a request, the child a
request was granted with, which is yet to send its port, or a reply. Tokens are
lost or delayed at will, and a wait may end before the reply is there.
-/

namespace XinuConsole.Correlation

open Lib ConnectUtils Consoled ReqGeneric

/-! ### Messages -/

/-- The message of `makeTCPConnection`. -/
def portMesg (port : UInt16) : List Byte := fmtD port.toNat ++ text " : connect port"

/-- A reply that carries a message arrives with its code and its text. -/
theorem recvfromReply_mesg (stack : Mem) (junk prior : Reply) (hostname : List Byte) (resp : Byte)
    {mesg : List Byte} (hm : (0 : Byte) ∉ mesg) (hlen : mesg.length + 1 < maxDetails) :
    let got := recvfromReply stack (some (serverReplyMesg junk hostname resp mesg)) prior
    got.ret = sizeofReply ∧ got.reply.code = resp ∧ got.reply.details.Has 0 (mesg ++ [0]) := by
  have hcount : atoi ((initReply junk resp hostname 0).numconnections.set
    (maxNConnections - 1) 0).val
      = 0 := atoi_store_count junk.numconnections (n := 0) (by norm_num)
  have hdlen : (mesg ++ [(0 : Byte)]).length = mesg.length + 1 := by simp
  have hcut : ((initReply junk resp hostname 0).header ++ (mesg ++ [0])).take sizeofReply =
      (initReply junk resp hostname 0).header ++ (mesg ++ [0]) := by
    apply List.take_of_length_le
    rw [List.length_append, Reply.header_length, hdlen]
    change _ ≤ 70 + maxDetails
    omega
  have h70 : sizeofReply - maxDetails = 70 := rfl
  have hstatus : ((initReply junk resp hostname 0).header ++ (mesg ++ [0])).length =
      70 + (mesg.length + 1) := by simp
  have hversion : (initReply junk resp hostname 0).version = curVersion := rfl
  dsimp only
  rw [serverReplyMesg_eq, cstr_of_not_mem hm]
  simp only [recvfromReply, hcut, hstatus, h70, replyOfBytes_header, hversion]
  rw [if_neg (by omega), if_neg (by omega), if_neg (by simp), Nat.add_sub_cancel_left, hcount]
  simp only [recvDetails]
  rw [if_pos (by simp), if_neg (by omega)]
  refine ⟨rfl, rfl, ?_⟩
  -- the terminator that the decoder adds lies behind the message
  have htext : ((Mem.ofList (mesg ++ [0]) (stack.shift 70)).set (mesg.length + 1) 0).read 0
      (mesg.length + 1) = mesg ++ [0] := by
    rw [Mem.read_set_disjoint _ _ (.inl (by omega)), ← hdlen]
    exact Mem.has_ofList _ _
  have hwritten := Mem.has_write prior.details 0
    (((Mem.ofList (mesg ++ [0]) (stack.shift 70)).set (mesg.length + 1) 0).read 0
      (mesg.length + 1 + 1))
  rw [Mem.read_add, htext] at hwritten
  rw [Mem.read_add, htext]
  exact (Mem.has_append.mp hwritten).1

theorem accept_mesg (stack : Mem) (junk prior : Reply) (hostname : List Byte) (resp : Byte)
    {mesg : List Byte} (hm : (0 : Byte) ∉ mesg) (hlen : mesg.length + 1 < maxDetails)
    {reply : Reply}
    (h : accept stack (some (serverReplyMesg junk hostname resp mesg)) prior = some reply) :
    resp = respOk ∧ ∃ rest, reply.details.read 0 maxDetails = mesg ++ [0] ++ rest := by
  obtain ⟨hret, hcode, hdetails⟩ := recvfromReply_mesg stack junk prior hostname resp hm hlen
  simp only [accept, hret, hcode] at h
  rw [if_neg (by simp)] at h
  split at h
  · exact absurd h (by simp)
  · next hok =>
      obtain rfl := Option.some.inj h
      obtain ⟨k, hk⟩ : ∃ k, maxDetails = (mesg ++ [(0 : Byte)]).length + k :=
        ⟨maxDetails - (mesg.length + 1), by rw [List.length_append, List.length_singleton]; omega⟩
      exact ⟨not_not.mp hok, _, (congrArg (Mem.read _ 0) hk).trans
        ((Mem.read_add _ 0 _ k).trans (congrArg (· ++ _) hdetails))⟩

/-- The port that a client reads from the message of a child. -/
theorem atoi_portMesg (port : UInt16) (rest : List Byte) :
    atoi (portMesg port ++ [0] ++ rest) = port.toNat := by
  rw [portMesg, fmtD_natCast, List.append_assoc, List.append_assoc]
  exact atoi_decimal port.toNat rfl

theorem zero_not_mem_portMesg (port : UInt16) : (0 : Byte) ∉ portMesg port := by
  rw [portMesg, fmtD_natCast, List.mem_append]
  rintro (h | h)
  · exact zero_not_mem_decimal _ h
  · exact absurd h (by decide)

theorem portMesg_length_lt (port : UInt16) : (portMesg port).length + 1 < maxDetails := by
  have hdigits : (decimal port.toNat).length ≤ 5 :=
    decimal_length_le (by norm_num) (port.toNat_lt.trans (by norm_num))
  have htext : (text " : connect port").length = 15 := rfl
  have hroom : 21 < maxDetails := by decide
  rw [portMesg, fmtD_natCast, List.length_append, htext]
  omega

/-! ### The network -/

/-- A connected socket: its own address and the server it talks to. -/
structure Socket (Host : Type) where
  psa : Addr
  peer : Host
  deriving DecidableEq

/-- The child of a granted request, with the port it listens on. -/
structure PortChild where
  pid : ℤ
  row : Condata
  port : UInt16

inductive Stage
  | request
  | child (pid : ℤ) (row : Condata)
  | reply (dgram : List Byte) (source : Option PortChild)

/-- Something on its way. `tag` is the number of the call that sent the request
`req` to `host` from `psa`; the requests of other clients have none. -/
structure Token (Host : Type) where
  tag : Option ℕ
  host : Host
  psa : Addr
  req : Request
  stage : Stage

/-- What a call is made with. -/
structure Call where
  user : List Byte
  connection : Option (List Byte)
  cls : Option (List Byte)
  host : List Byte
  code : Byte
  deriving DecidableEq

/-- How far a call has got. -/
inductive Progress (Host : Type)
  | silent
  | waiting (sock : Socket Host)
  | heard (sock : Socket Host) (tk : Token Host)
  | gaveUp (sock : Socket Host)

/-- A call that has not returned: the request it builds, the memory its reply
goes to, its socket calls so far and the rest of its program. -/
structure Running (Host : Type) where
  call : Call
  req : Request
  stack : Mem
  prior : Reply
  seen : Talk (Socket Host)
  progress : Progress Host
  todo : SockProg (Socket Host) (Option Reply × Static (Socket Host))

/-- A call that has returned; the result is the reply, if it returned 0. -/
structure Done (Host : Type) where
  call : Call
  req : Request
  progress : Progress Host
  result : Option Reply

structure State (Host : Type) where
  static : Static (Socket Host)
  running : Option (Running Host)
  finished : List (Done Host)
  tokens : List (Token Host)
  daemons : Host → Daemon

/-- What does not change: the names of the servers, the addresses that the
client's sockets get, and the servers' access rules. -/
structure Network (Host : Type) where
  resolve : List Byte → Option Host
  ours : Addr → Bool
  hostsCtl : Addr → List Byte → Bool

variable {Host : Type} [DecidableEq Host]

/-- What an effect of serving a token puts on its way. -/
def Token.answer (tk : Token Host) (d : Daemon) : Effect → Option (Token Host)
  | .sendto dst dgram => some { tk with psa := dst, stage := .reply dgram none }
  | .fork pid i peer => (d.config[i]?).map fun row => { tk with psa := peer, stage := .child pid row }
  | _ => none

inductive Act (Host : Type)
  | begins (call : Call) (req : Request) (stack : Mem) (prior : Reply)
  | connects (sock : Option (Socket Host))
  | closes
  | sends (ok : Bool)
  | receives (j : ℕ)
  | timesOut
  | returns
  | loses (j : ℕ)
  | foreign (host : Host) (psa : Addr) (req : Request)
  | serves (j : ℕ) (junk : Reply) (pid now : ℤ)
  | childReplies (j : ℕ) (junk : Reply) (port : UInt16)
  | evolves (host : Host) (d : Daemon)

/-- Whether `connectUDP` may answer with the socket. -/
def Network.Opens (net : Network Host) (host : List Byte) : Option (Socket Host) → Prop
  | none => True
  | some sock => net.ours sock.psa = true ∧ net.resolve host = some sock.peer

instance (net : Network Host) (host : List Byte) (sock : Option (Socket Host)) :
    Decidable (net.Opens host sock) :=
  match sock with
  | none => isTrue trivial
  | some _ => inferInstanceAs (Decidable (_ ∧ _))

/-- The steps of the client. -/
def clientStep (net : Network Host) (s : State Host) : Act Host → Option (State Host)
  | .begins call req stack prior =>
      match s.running with
      | some _ => none
      | none =>
          let todo := reqGeneric req call.user stack prior s.static call.connection call.cls
            call.host call.code
          let req := initRequest req call.user call.code call.connection call.cls
          some { s with running := some ⟨call, req, stack, prior, [], .silent, todo⟩ }
  | .connects sock =>
      match s.running with
      | some ⟨call, req, stack, prior, seen, progress, .call (.connectUDP host) next⟩ =>
          if net.Opens host sock then
            let seen := seen ++ [⟨.connectUDP host, sock⟩]
            some { s with running := some ⟨call, req, stack, prior, seen, progress, next sock⟩ }
          else none
      | _ => none
  | .closes =>
      match s.running with
      | some ⟨call, req, stack, prior, seen, progress, .call (.close sock) next⟩ =>
          let seen := seen ++ [⟨.close sock, ()⟩]
          some { s with running := some ⟨call, req, stack, prior, seen, progress, next ()⟩ }
      | _ => none
  | .sends ok =>
      match s.running with
      | some ⟨call, req, stack, prior, seen, progress, .call (.send sock dgram) next⟩ =>
          -- the number of the call is not part of the datagram
          let seen := seen ++ [⟨.send sock dgram, ok⟩]
          if ok then
            (recvfromRequest dgram).map fun sent =>
              { s with
                running := some ⟨call, req, stack, prior, seen, .waiting sock, next ok⟩
                tokens := s.tokens ++
                  [⟨some s.finished.length, sock.peer, sock.psa, sent, .request⟩] }
          else some { s with running := some ⟨call, req, stack, prior, seen, progress, next ok⟩ }
      | _ => none
  | .receives j =>
      match s.running, s.tokens[j]? with
      | some ⟨call, req, stack, prior, seen, _, .call (.recv sock) next⟩, some tk =>
          match tk.stage with
          | .reply dgram _ =>
              -- any reply to the socket will do, whatever call it goes back to
              if tk.host = sock.peer ∧ tk.psa = sock.psa then
                let seen := seen ++ [⟨.recv sock, some dgram⟩]
                some { s with
                  running := some ⟨call, req, stack, prior, seen, .heard sock tk, next (some dgram)⟩
                  tokens := s.tokens.eraseIdx j }
              else none
          | _ => none
      | _, _ => none
  | .timesOut =>
      match s.running with
      | some ⟨call, req, stack, prior, seen, _, .call (.recv sock) next⟩ =>
          let seen := seen ++ [⟨.recv sock, none⟩]
          some { s with running := some ⟨call, req, stack, prior, seen, .gaveUp sock, next none⟩ }
      | _ => none
  | .returns =>
      match s.running with
      | some ⟨call, req, _, _, _, progress, .ret (result, static)⟩ =>
          some { s with
            static := static
            running := none
            finished := s.finished ++ [⟨call, req, progress, result⟩] }
      | _ => none
  | _ => none

/-- The steps of the network and the servers. -/
def networkStep (net : Network Host) (s : State Host) : Act Host → Option (State Host)
  | .loses j => some { s with tokens := s.tokens.eraseIdx j }
  | .foreign host psa req =>
      if net.ours psa = true then none
      else some { s with tokens := s.tokens ++ [⟨none, host, psa, req, .request⟩] }
  | .serves j junk pid now =>
      match s.tokens[j]? with
      | some ⟨tag, host, psa, req, .request⟩ =>
          let d := s.daemons host
          let r := processRequest net.hostsCtl junk pid now d psa req
          let answers := r.2.filterMap (Token.answer ⟨tag, host, psa, req, .request⟩ d)
          some { s with
            tokens := s.tokens.eraseIdx j ++ answers
            daemons := Function.update s.daemons host r.1 }
      | _ => none
  | .childReplies j junk port =>
      match s.tokens[j]? with
      | some ⟨tag, host, psa, req, .child pid row⟩ =>
          let hostname := (s.daemons host).hostname.val
          let dgram := serverReplyMesg junk hostname respOk (portMesg port)
          some { s with tokens := s.tokens.eraseIdx j ++
            [⟨tag, host, psa, req, .reply dgram (some ⟨pid, row, port⟩)⟩] }
      | _ => none
  | .evolves host d => some { s with daemons := Function.update s.daemons host d }
  | _ => none

/-- The steps of the whole. -/
def nstep (net : Network Host) (s : State Host) (a : Act Host) : Option (State Host) :=
  (clientStep net s a).or (networkStep net s a)

def NStep (net : Network Host) (s : State Host) (a : Act Host) (s' : State Host) : Prop :=
  nstep net s a = some s'

/-- The client has not made a call, and nothing is on its way. -/
structure NInit (s : State Host) : Prop where
  sock : s.static.sock = none
  running : s.running = none
  finished : s.finished = []
  tokens : s.tokens = []

/-! ### What is on its way -/

/-- Serving the request, the server forks `pid` for `row`. -/
def Forked (hostsCtl : Addr → List Byte → Bool) (psa : Addr) (req : Request) (pid : ℤ)
    (row : Condata) : Prop :=
  ∃ junk answer now d i, Effect.fork pid i psa ∈
    (processRequest hostsCtl junk answer now d psa req).2 ∧ d.config[i]? = some row

/-- The datagram is the server's reply to the request, sent when it served the
request or by the child it forked for it. -/
def ServerReply (hostsCtl : Addr → List Byte → Bool) (psa : Addr) (req : Request)
    (dgram : List Byte) : Option PortChild → Prop
  | none => ∃ junk pid now d, Effect.sendto psa dgram ∈
      (processRequest hostsCtl junk pid now d psa req).2
  | some c => Forked hostsCtl psa req c.pid c.row ∧
      ∃ junk hostname, dgram = serverReplyMesg junk hostname respOk (portMesg c.port)

def Token.Sound (net : Network Host) (tk : Token Host) : Prop :=
  match tk.stage with
  | .request => True
  | .child pid row => Forked net.hostsCtl tk.psa tk.req pid row
  | .reply dgram source => ServerReply net.hostsCtl tk.psa tk.req dgram source

theorem Forked.row {hostsCtl : Addr → List Byte → Bool} {psa : Addr} {req : Request} {pid : ℤ}
    {row : Condata} (h : Forked hostsCtl psa req pid row) :
    req.code = reqMakeConnection ∧ conMatches req.conname.val req.conclass.val row = true ∧
      row.conpid = badPid := by
  obtain ⟨junk, answer, now, d, i, hfork, hrow⟩ := h
  have hmem := List.mem_filterMap.mpr
    ⟨_, hfork, (rfl : Effect.forked (.fork pid i psa) = some (pid, i))⟩
  cases processRequest_served hostsCtl junk answer now d psa req with
  | same hconfig hnone => simp [hnone] at hmem
  | touched j row' hadm hcode haddr hheld huser hconfig hnone => simp [hnone] at hmem
  | made j row' hadm hcode haddr hfree hpid hconfig hone =>
      rw [hone] at hmem
      obtain ⟨-, rfl⟩ := Prod.mk.inj (List.mem_singleton.mp hmem)
      obtain ⟨row'', hrow'', hmatch⟩ := getcondata_some haddr.1
      obtain rfl : row'' = row := Option.some.inj (hrow''.symm.trans hrow)
      obtain rfl : row' = row'' := Option.some.inj (haddr.2.symm.trans hrow)
      exact ⟨hcode, hmatch, hfree⟩

/-- What the daemon itself answers to a make request is that it is refused. -/
theorem make_refused {hostsCtl : Addr → List Byte → Bool} {junk : Reply} {pid now : ℤ} {d : Daemon}
    {psa dst : Addr} {req : Request} {dgram : List Byte} (hcode : req.code = reqMakeConnection)
    (h : Effect.sendto dst dgram ∈ (processRequest hostsCtl junk pid now d psa req).2) :
    ∃ mesg, (0 : Byte) ∉ mesg ∧ mesg.length + 1 < maxDetails ∧
      dgram = serverReplyMesg junk d.hostname.val respErr mesg := by
  have hprocessed := processRequest_processed hostsCtl junk pid now d psa req
  generalize processRequest hostsCtl junk pid now d psa req = r at h hprocessed
  cases hprocessed with
  | silent logs hlogs => exact absurd h (hlogs.not_mem (by simp))
  | told d' logs resp m hlogs hconfig hm hlen hmake =>
      obtain ⟨-, rfl⟩ : dst = psa ∧ _ := by simpa [hlogs.not_mem] using h
      exact ⟨m, hm, hlen, by rw [hmake hcode]⟩
  | listed logs hlogs hadm hcode' => exact absurd (hcode.symm.trans hcode') (by decide)
  | touched i row logs hlogs hadm hcode' => exact absurd (hcode.symm.trans hcode') (by decide)
  | made i row logs logs' hlogs hlogs' => simp [hlogs.not_mem, hlogs'.not_mem] at h
  | broken i row logs hlogs hadm hcode' => exact absurd (hcode.symm.trans hcode') (by decide)

/-- A granted make request comes with the port of the child. -/
theorem ServerReply.granted {hostsCtl : Addr → List Byte → Bool} {psa : Addr} {req : Request}
    {dgram : List Byte} {source : Option PortChild} (h : ServerReply hostsCtl psa req dgram source)
    (hcode : req.code = reqMakeConnection) {stack : Mem} {prior reply : Reply}
    (haccept : accept stack (some dgram) prior = some reply) :
    ∃ child, source = some child ∧ Forked hostsCtl psa req child.pid child.row ∧
      atoi (reply.details.read 0 maxDetails) = child.port.toNat := by
  cases source with
  | none =>
      obtain ⟨junk, pid, now, d, hsend⟩ := h
      obtain ⟨mesg, hm, hlen, rfl⟩ := make_refused hcode hsend
      obtain ⟨hok, -⟩ := accept_mesg stack junk prior d.hostname.val respErr hm hlen haccept
      exact absurd hok (by decide)
  | some child =>
      obtain ⟨hforked, junk, hostname, rfl⟩ := h
      obtain ⟨-, rest, hread⟩ := accept_mesg stack junk prior hostname respOk
        (zero_not_mem_portMesg child.port) (portMesg_length_lt child.port) haccept
      refine ⟨child, rfl, hforked, ?_⟩
      rw [hread]
      exact atoi_portMesg child.port rest

/-- Another stage of the same request. -/
structure Token.Follows (tk tk' : Token Host) : Prop where
  tag : tk'.tag = tk.tag
  host : tk'.host = tk.host
  psa : tk'.psa = tk.psa
  req : tk'.req = tk.req

omit [DecidableEq Host] in
theorem answers_spec (net : Network Host) (tk : Token Host) (junk : Reply) (pid now : ℤ)
    (d : Daemon) :
    let answers := (processRequest net.hostsCtl junk pid now d tk.psa tk.req).2.filterMap (tk.answer d)
    answers.length ≤ 1 ∧ ∀ x ∈ answers, tk.Follows x ∧ x.Sound net := by
  intro answers
  have hpeers := (processRequest_processed net.hostsCtl junk pid now d tk.psa tk.req).peers
  have hle : answers.length ≤
      ((processRequest net.hostsCtl junk pid now d tk.psa tk.req).2.filterMap
        Effect.peer).length := by
    rw [List.length_filterMap_eq_countP, List.length_filterMap_eq_countP]
    apply List.countP_mono_left
    intro e _ he
    cases e <;> simp [Token.answer, Effect.peer] at he ⊢
  -- what is answered goes back to the sender
  have hpeer : ∀ e ∈ (processRequest net.hostsCtl junk pid now d tk.psa tk.req).2, ∀ a,
      e.peer = some a → a = tk.psa := by
    intro e he a ha
    have hmem := List.mem_filterMap.mpr ⟨e, he, ha⟩
    rcases hpeers with h | h <;> rw [h] at hmem
    · exact absurd hmem (by simp)
    · exact List.mem_singleton.mp hmem
  refine ⟨hle.trans (by rcases hpeers with h | h <;> simp [h]), fun x hx => ?_⟩
  obtain ⟨e, he, hanswer⟩ := List.mem_filterMap.mp hx
  cases e with
  | sendto dst dgram =>
      obtain rfl : dst = tk.psa := hpeer _ he dst rfl
      obtain rfl := Option.some.inj hanswer
      exact ⟨⟨rfl, rfl, rfl, rfl⟩, junk, pid, now, d, he⟩
  | fork child i peer =>
      obtain rfl : peer = tk.psa := hpeer _ he peer rfl
      obtain ⟨row, hrow, rfl⟩ := Option.map_eq_some_iff.mp hanswer
      exact ⟨⟨rfl, rfl, rfl, rfl⟩, junk, pid, now, d, i, he, hrow⟩
  | log line => exact absurd hanswer (by simp [Token.answer])
  | kill p => exact absurd hanswer (by simp [Token.answer])

/-- What the network does to the tokens. -/
inductive Moved (net : Network Host) (l : List (Token Host)) : List (Token Host) → Prop
  | same : Moved net l l
  | lost (j : ℕ) : Moved net l (l.eraseIdx j)
  | foreign (tk : Token Host) (hpsa : net.ours tk.psa = false) (hsound : tk.Sound net) :
      Moved net l (l ++ [tk])
  | replaced (j : ℕ) (tk : Token Host) (new : List (Token Host)) (htk : l[j]? = some tk)
      (hlen : new.length ≤ 1) (hnew : ∀ x ∈ new, tk.Follows x ∧ x.Sound net) :
      Moved net l (l.eraseIdx j ++ new)

theorem networkStep_moved {net : Network Host} {s s' : State Host} {a : Act Host}
    (hsound : ∀ tk ∈ s.tokens, tk.Sound net) (h : networkStep net s a = some s') :
    Moved net s.tokens s'.tokens ∧ s'.static = s.static ∧ s'.running = s.running ∧
      s'.finished = s.finished := by
  unfold networkStep at h
  split at h
  · obtain rfl := Option.some.inj h
    exact ⟨.lost _, rfl, rfl, rfl⟩
  · split at h
    · exact absurd h (by simp)
    · next hours =>
        obtain rfl := Option.some.inj h
        exact ⟨.foreign _ (by simpa using hours) trivial, rfl, rfl, rfl⟩
  · split at h
    · next tag host psa req htk =>
        obtain rfl := Option.some.inj h
        obtain ⟨hlen, hnew⟩ := answers_spec net ⟨tag, host, psa, req, .request⟩ _ _ _ _
        exact ⟨.replaced _ _ _ htk hlen hnew, rfl, rfl, rfl⟩
    · exact absurd h (by simp)
  · split at h
    · next tag host psa req pid row htk =>
        obtain rfl := Option.some.inj h
        have hforked : Forked net.hostsCtl psa req pid row := hsound _ (List.mem_of_getElem? htk)
        refine ⟨.replaced _ _ _ htk (by simp) fun x hx => ?_, rfl, rfl, rfl⟩
        obtain rfl := List.mem_singleton.mp hx
        exact ⟨⟨rfl, rfl, rfl, rfl⟩, hforked, _, _, rfl⟩
    · exact absurd h (by simp)
  · obtain rfl := Option.some.inj h
    exact ⟨.same, rfl, rfl, rfl⟩
  · exact absurd h (by simp)

omit [DecidableEq Host] in
theorem Moved.sound {net : Network Host} {l l' : List (Token Host)} (h : Moved net l l')
    (hsound : ∀ tk ∈ l, tk.Sound net) : ∀ tk ∈ l', tk.Sound net := by
  intro tk htk
  cases h with
  | same => exact hsound tk htk
  | lost j => exact hsound tk (List.mem_of_mem_eraseIdx htk)
  | foreign x hpsa hx =>
      rcases List.mem_append.mp htk with htk | htk
      · exact hsound tk htk
      · obtain rfl := List.mem_singleton.mp htk
        exact hx
  | replaced j x new hx hlen hnew =>
      rcases List.mem_append.mp htk with htk | htk
      · exact hsound tk (List.mem_of_mem_eraseIdx htk)
      · exact (hnew tk htk).2

end XinuConsole.Correlation
