import XinuConsole.Keepalive
import XinuConsole.StatusRoundTrip

/-!
Many clients and one daemon.

Any number of clients run `makeConnection` and then send keep-alive touches.
Requests are on their way for as long as the network likes, arrive in any order,
more than once or never; a status reply may reach a client at any time after it
was sent. What a client has been answered travels, as a ghost, with the
requests it sends, so that a break request can be traced back to the status
reply on which the thief based it.

The daemon looks neither at the user of a break request nor at the time of the
row. `reservation_respected` says what is left of the reservation.
-/

namespace XinuConsole.Reservation

open Lib ConnectUtils Consoled MakeConnection

/-- A status reply the daemon sent, by what it was made from. -/
structure Listing where
  junk : Reply
  hostname : CharArray maxHostName
  config : List Condata
  req : Request
  now : ℤ

/-- The datagram of a listing. -/
def Listing.dgram (l : Listing) : List Byte :=
  let sent := status l.junk l.hostname.val l.config l.req l.now
  sendtoReply sent.1 sent.2

/-- A request on its way. `call` is the call of `makeConnection` that sent it,
if one did, with what that client had been answered before. -/
structure Message where
  psa : Addr
  req : Request
  call : Option (History × Op)

/-- A client in `makeConnection`, or after it. -/
structure ClientState where
  user : List Byte
  todo : Client (ℤ × Buffers)
  seen : History

structure World where
  machine : Machine
  clock : ℤ
  clients : List ClientState
  messages : List Message
  listings : List Listing
  pending : Option Message

/-- The request that a call sends, built on a stack with any content. -/
def request (stack : Request) (user : List Byte) : Op → Option Request
  | .obtainStatus connection cls _ => some (initRequest stack user reqStatus connection cls)
  | .reqGeneric connection cls _ code =>
      some (initRequest stack user code (some connection) (some cls))
  | _ => none

/-- A datagram that arrives at a status socket, as the number of its listing,
with what the memory involved held before. -/
structure Arrival where
  number : ℕ
  stack : Mem
  prior : Reply

/-- `statusrecv` on an arrival. -/
def Arrival.decode (w : World) (a : Arrival) : Option Reply :=
  match w.listings[a.number]? with
  | none => none
  | some l =>
    let got := recvfromReply a.stack (some l.dgram) a.prior
    if got.ret = -1 then none else some got.reply

inductive Act
  | tick (clock : ℤ)
  | joins (envClass : Option (List Byte)) (user : List Byte) (stack : CharArray maxClassName)
      (b : Buffers) (getserial2 : ℤ)
  | sends (k : ℕ) (psa : Addr) (stack : Request)
  | arrives (k : ℕ) (arrivals : List Arrival)
  | answered (k : ℕ) (answer : (op : Op) → Option (Res op))
  | keepalive (k : ℕ) (psa : Addr) (g_req : Request)
  | foreign (psa : Addr) (req : Request)
  | delivered (number : ℕ)
  | daemon (e : Event)
  | served (junk : Reply) (pid : ℤ)

/-- The listing that serving the pending request sends. -/
def newListings (hostsCtl : Addr → List Byte → Bool) (w : World) (junk : Reply) : List Listing :=
  match w.machine.phase with
  | .serving psa req =>
      if hostsCtl psa (Request.userString req) = true ∧ req.version = curVersion ∧
          req.code = reqStatus then
        [⟨junk, w.machine.daemon.hostname, w.machine.config, req, w.clock⟩]
      else []
  | _ => []

/-- One step; `none` where the action cannot happen. -/
def wstep (hostsCtl : Addr → List Byte → Bool) (w : World) : Act → Option World
  | .tick clock => if w.clock ≤ clock then some { w with clock := clock } else none
  | .joins envClass user stack b getserial2 =>
      some { w with clients := w.clients ++
        [⟨user, MakeConnection.makeConnection envClass user stack b getserial2, []⟩] }
  | .sends k psa stack =>
      match w.clients[k]? with
      | some ⟨user, .call op _, seen⟩ => (request stack user op).map fun req =>
          { w with messages := w.messages ++ [⟨psa, req, some (seen, op)⟩] }
      | _ => none
  | .arrives k arrivals =>
      match w.clients[k]? with
      | some ⟨user, .call (.obtainStatus connection cls host) next, seen⟩ =>
          (arrivals.mapM (Arrival.decode w)).map fun replies =>
            let seen := seen ++ [⟨.obtainStatus connection cls host, replies⟩]
            { w with clients := w.clients.set k ⟨user, next replies, seen⟩ }
      | _ => none
  | .answered k answer =>
      match w.clients[k]? with
      | some ⟨_, .call (.obtainStatus _ _ _) _, _⟩ => none
      | some ⟨user, .call op next, seen⟩ => (answer op).map fun r =>
          { w with clients := w.clients.set k ⟨user, next r, seen ++ [⟨op, r⟩]⟩ }
      | _ => none
  | .keepalive k psa g_req =>
      match w.clients[k]? with
      | some ⟨user, .ret (fd, b), _⟩ =>
          if 0 ≤ fd then
            some { w with messages := w.messages ++ [⟨psa, touchRequest g_req user b, none⟩] }
          else none
      | _ => none
  | .foreign psa req => some { w with messages := w.messages ++ [⟨psa, req, none⟩] }
  | .delivered number =>
      match w.messages[number]? with
      | none => none
      | some m => (step hostsCtl w.machine (.datagram m.psa m.req.bytes)).map fun r =>
          { w with machine := r.1, pending := some m }
  | .daemon (.datagram _ _) => none
  | .daemon (.serve _ _ _) => none
  | .daemon e => (step hostsCtl w.machine e).map fun r => { w with machine := r.1 }
  | .served junk pid => (step hostsCtl w.machine (.serve junk pid w.clock)).map fun r =>
      { w with
        machine := r.1
        listings := w.listings ++ newListings hostsCtl w junk
        pending := none }

def WStep (hostsCtl : Addr → List Byte → Bool) (w : World) (a : Act) (w' : World) : Prop :=
  wstep hostsCtl w a = some w'

/-- A daemon that has just read its configuration, which is not longer than the
configuration reader allows, and nothing on the way. -/
structure WInit (w : World) : Prop where
  machine : Init w.machine
  size : w.machine.config.length ≤ maxConnections
  clients : w.clients = []
  messages : w.messages = []
  listings : w.listings = []
  pending : w.pending = none

/-! ### What a step can do -/

/-- The client got `reply` by decoding the datagram of a listing. -/
def Decodes (l : Listing) (reply : Reply) : Prop :=
  ∃ stack prior, (recvfromReply stack (some l.dgram) prior).ret ≠ -1 ∧
    (recvfromReply stack (some l.dgram) prior).reply = reply

/-- Every status reply in a history is one of the daemon's. -/
def Informed (listings : List Listing) (h : History) : Prop :=
  ∀ reply, Got h reply → ∃ l ∈ listings, Decodes l reply

/-- The steps, sorted by what they do. -/
inductive WStepped (hostsCtl : Addr → List Byte → Bool) (w : World) : Act → World → Prop
  | tick {clock : ℤ} (hle : w.clock ≤ clock) : WStepped hostsCtl w (.tick clock) { w with clock := clock }
  | joins {envClass : Option (List Byte)} {user : List Byte} {stack : CharArray maxClassName}
      {b : Buffers} {getserial2 : ℤ} :
      WStepped hostsCtl w (.joins envClass user stack b getserial2)
        { w with clients := w.clients ++
          [⟨user, MakeConnection.makeConnection envClass user stack b getserial2, []⟩] }
  | sends {k : ℕ} {psa : Addr} {stack : Request} {user : List Byte} {op : Op}
      {next : Res op → Client (ℤ × Buffers)} {seen : History} {req : Request}
      (hclient : ⟨user, .call op next, seen⟩ ∈ w.clients) (hreq : request stack user op = some req) :
      WStepped hostsCtl w (.sends k psa stack)
        { w with messages := w.messages ++ [⟨psa, req, some (seen, op)⟩] }
  | answered {a : Act} {k : ℕ} {user : List Byte} {op : Op} {next : Res op → Client (ℤ × Buffers)}
      {seen : History} {r : Res op} (hclient : ⟨user, .call op next, seen⟩ ∈ w.clients)
      (hgot : Informed w.listings [⟨op, r⟩]) :
      WStepped hostsCtl w a { w with clients := w.clients.set k ⟨user, next r, seen ++ [⟨op, r⟩]⟩ }
  | plain {a : Act} {psa : Addr} {req : Request} :
      WStepped hostsCtl w a { w with messages := w.messages ++ [⟨psa, req, none⟩] }
  | delivered {number : ℕ} {m : Message} {machine : Machine} {fx : List Effect}
      (hm : m ∈ w.messages)
      (hs : Step hostsCtl w.machine (.datagram m.psa m.req.bytes, fx) machine) :
      WStepped hostsCtl w (.delivered number) { w with machine := machine, pending := some m }
  | daemon {e : Event} {machine : Machine} {fx : List Effect}
      (hrecv : ∀ psa d, e ≠ .datagram psa d) (hserve : ∀ junk pid now, e ≠ .serve junk pid now)
      (hs : Step hostsCtl w.machine (e, fx) machine) :
      WStepped hostsCtl w (.daemon e) { w with machine := machine }
  | served {junk : Reply} {pid : ℤ} {machine : Machine} {fx : List Effect}
      (hs : Step hostsCtl w.machine (.serve junk pid w.clock, fx) machine) :
      WStepped hostsCtl w (.served junk pid)
        { w with
          machine := machine
          listings := w.listings ++ newListings hostsCtl w junk
          pending := none }

theorem exists_of_mem_mapM {α β : Type} {f : α → Option β} {l : List α} {ys : List β}
    (h : l.mapM f = some ys) {y : β} (hy : y ∈ ys) : ∃ x ∈ l, f x = some y := by
  induction l generalizing ys with
  | nil =>
      obtain rfl : ys = [] := by simpa using h.symm
      exact absurd hy (by simp)
  | cons x l ih =>
      simp only [List.mapM_cons, Option.bind_eq_bind, Option.bind_eq_some_iff] at h
      obtain ⟨z, hz, zs, hzs, hout⟩ := h
      obtain rfl := Option.some.inj hout
      rcases List.mem_cons.mp hy with rfl | hy
      · exact ⟨x, List.mem_cons_self, hz⟩
      · obtain ⟨x', hx', hfx⟩ := ih hzs hy
        exact ⟨x', List.mem_cons_of_mem _ hx', hfx⟩

theorem decodes_of_arrival {w : World} {a : Arrival} {reply : Reply}
    (h : a.decode w = some reply) : ∃ l ∈ w.listings, Decodes l reply := by
  unfold Arrival.decode at h
  split at h
  · exact absurd h (by simp)
  · next l hl =>
      dsimp only at h
      split at h
      · exact absurd h (by simp)
      · next hret => exact ⟨l, List.mem_of_getElem? hl, a.stack, a.prior, hret, Option.some.inj h⟩

theorem WStep.cases {hostsCtl : Addr → List Byte → Bool} {w w' : World} {a : Act}
    (h : WStep hostsCtl w a w') : WStepped hostsCtl w a w' := by
  unfold WStep wstep at h
  split at h
  · split at h
    · next hle =>
        obtain rfl := Option.some.inj h
        exact .tick hle
    · exact absurd h (by simp)
  · obtain rfl := Option.some.inj h
    exact .joins
  · split at h
    · next hclient =>
        obtain ⟨req, hreq, rfl⟩ := Option.map_eq_some_iff.mp h
        exact .sends (List.mem_of_getElem? hclient) hreq
    · exact absurd h (by simp)
  · split at h
    · next hclient =>
        obtain ⟨replies, hreplies, rfl⟩ := Option.map_eq_some_iff.mp h
        refine .answered (List.mem_of_getElem? hclient) ?_
        rintro reply ⟨connection, cls, host, replies', hmem, hreply⟩
        obtain ⟨-, hsame⟩ := Answered.mk.inj (List.mem_singleton.mp hmem)
        obtain rfl := eq_of_heq hsame
        obtain ⟨arrival, -, hdecode⟩ := exists_of_mem_mapM hreplies hreply
        exact decodes_of_arrival hdecode
    · exact absurd h (by simp)
  · split at h
    · exact absurd h (by simp)
    · next hop hclient =>
        obtain ⟨r, hr, rfl⟩ := Option.map_eq_some_iff.mp h
        refine .answered (List.mem_of_getElem? hclient) ?_
        rintro reply ⟨connection, cls, host, replies, hmem, -⟩
        obtain ⟨rfl, -⟩ := Answered.mk.inj (List.mem_singleton.mp hmem)
        exact (hop _ _ _ _ rfl HEq.rfl).elim
    · exact absurd h (by simp)
  · split at h
    · split at h
      · obtain rfl := Option.some.inj h
        exact .plain
      · exact absurd h (by simp)
    · exact absurd h (by simp)
  · obtain rfl := Option.some.inj h
    exact .plain
  · split at h
    · exact absurd h (by simp)
    · next m hm =>
        obtain ⟨⟨machine, fx⟩, hs, rfl⟩ := Option.map_eq_some_iff.mp h
        exact .delivered (List.mem_of_getElem? hm) hs
  · exact absurd h (by simp)
  · exact absurd h (by simp)
  · next hrecv hserve =>
      obtain ⟨⟨machine, fx⟩, hs, rfl⟩ := Option.map_eq_some_iff.mp h
      exact .daemon hrecv hserve hs
  · obtain ⟨⟨machine, fx⟩, hs, rfl⟩ := Option.map_eq_some_iff.mp h
    exact .served hs

/-! ### Times -/

/-- No held row was taken or touched later than `clock`. -/
def Past (config : List Condata) (clock : ℤ) : Prop :=
  ∀ row ∈ config, row.conpid ≠ badPid → row.contime ≤ clock

theorem Past.mono {config : List Condata} {clock clock' : ℤ} (h : Past config clock)
    (hle : clock ≤ clock') : Past config clock' :=
  fun row hrow hheld => (h row hrow hheld).trans hle

theorem Past.step {hostsCtl : Addr → List Byte → Bool} {m m' : Machine} {l : Event × List Effect}
    {clock : ℤ} (h : Past m.config clock) (hs : Step hostsCtl m l m')
    (hnow : ∀ junk pid now, l.1 = .serve junk pid now → now = clock) : Past m'.config clock := by
  intro row' hmem hheld'
  obtain ⟨i, hi, hrow'⟩ := List.mem_iff_getElem.mp hmem
  have hlt : i < m.config.length := by rwa [← hs.config_length]
  obtain ⟨row₁, hrow₁, hstep⟩ := hs.row (List.getElem?_eq_getElem hlt)
  obtain rfl : row₁ = row' := by
    rw [List.getElem?_eq_getElem hi, hrow'] at hrow₁
    exact (Option.some.inj hrow₁).symm
  cases hstep with
  | same => exact h _ (List.getElem_mem hlt) hheld'
  | freed fx => exact absurd (freeRow_self _).1 hheld'
  | touched junk pid now => exact (hnow junk pid now rfl).le
  | made junk pid now => exact (hnow junk pid now rfl).le

/-- `sscanf` on what `Status` prints. -/
theorem scanTime_renderTime {v : ℤ} (hv : IsInt v) :
    scanTime (renderTime v) = some (v.tdiv 3600, (v.tmod 3600).tdiv 60) := by
  have hscan : ∀ (n : ℤ) (rest : List Byte),
      scanInt (fmt02D n ++ 58 :: rest) = some (n, 58 :: rest) := fun n rest => scanInt_fmt02D n rfl
  have hlast : ∀ n : ℤ, atoi (fmt02D n) = n := fun n => by
    have hnone : isDigit (([] : List Byte).headD 0) = false := rfl
    have hread := scanInt_fmt02D n hnone
    rw [List.append_nil] at hread
    rw [atoi, hread]
    rfl
  have hint : ∀ n : ℤ, n.natAbs < 2 ^ 31 → IsInt n := by
    intro n hn
    unfold IsInt
    omega
  have habs : v.natAbs ≤ 2 ^ 31 := by
    unfold IsInt at hv
    omega
  have hmod : (v.tmod 3600).natAbs < 3600 := by
    rw [Int.natAbs_tmod]
    exact Nat.mod_lt _ (by norm_num)
  have hhours : IsInt (v.tdiv 3600) := by
    refine hint _ ?_
    rw [Int.natAbs_tdiv]
    change v.natAbs / 3600 < 2 ^ 31
    omega
  have hmin : IsInt ((v.tmod 3600).tdiv 60) := by
    refine hint _ ?_
    rw [Int.natAbs_tdiv]
    change (v.tmod 3600).natAbs / 60 < 2 ^ 31
    omega
  have hsec : IsInt ((v.tmod 3600).tmod 60) := by
    refine hint _ ?_
    rw [Int.natAbs_tmod]
    change (v.tmod 3600).natAbs % 60 < 2 ^ 31
    omega
  simp only [scanTime, renderTime, List.append_assoc, List.cons_append, List.nil_append, hscan,
    List.headD_cons, ne_eq, not_true_eq_false, if_false, if_true, List.tail_cons, hlast]
  exact if_pos ⟨hhours, hmin, hsec⟩

/-- `getMinutes` on what `Status` prints. -/
theorem getMinutes_renderTime {v : ℤ} (hv : IsInt v) :
    getMinutes (renderTime v) =
      some (if v.tdiv 3600 > 0 then (v.tmod 3600).tdiv 60 + v.tdiv 3600 * 60
        else (v.tmod 3600).tdiv 60) := by
  simp only [getMinutes, scanTime_renderTime hv]
  split
  · next hpos =>
      -- the sum is the number of minutes in all
      have h₀ : 0 ≤ v := by
        by_contra hneg
        have hquot := Int.tdiv_nonneg (a := -v) (b := 3600) (by omega) (by norm_num)
        rw [Int.neg_tdiv] at hquot
        omega
      rw [if_pos]
      rw [Int.tdiv_eq_ediv_of_nonneg h₀, Int.tmod_eq_emod_of_nonneg h₀,
        Int.tdiv_eq_ediv_of_nonneg (Int.emod_nonneg v (by norm_num))]
      unfold IsInt at hv ⊢
      omega
  · rfl

theorem isInt_int32 (n : ℤ) : IsInt (int32 n) := int32_range n

/-- Minutes are read only where they have passed. -/
theorem le_of_getMinutes {d : ℤ} (hd : 0 ≤ d) {minutes : ℤ}
    (h : getMinutes (renderTime (int32 d)) = some minutes) (hlong : reserveTime ≤ minutes) :
    reserveTime * 60 ≤ d := by
  rw [getMinutes_renderTime (isInt_int32 d)] at h
  have hv : int32 d ≤ d := by
    unfold int32 Int.bmod
    dsimp only
    split <;> omega
  generalize int32 d = v at h hv
  obtain rfl := Option.some.inj h
  simp only [reserveTime] at hlong ⊢
  -- after an overflow the time may be negative, and then no minutes are read
  rcases le_or_gt 0 v with hpos | hneg
  · simp only [Int.tdiv_eq_ediv_of_nonneg hpos, Int.tmod_eq_emod_of_nonneg hpos] at hlong
    rw [Int.tdiv_eq_ediv_of_nonneg (Int.emod_nonneg v (by norm_num))] at hlong
    split at hlong <;> omega
  · obtain ⟨n, rfl⟩ : ∃ n : ℕ, v = -n := ⟨v.natAbs, by omega⟩
    rw [Int.neg_tdiv, Int.neg_tmod, Int.neg_tdiv] at hlong
    have h₁ : (0 : ℤ) ≤ (n : ℤ).tdiv 3600 := Int.tdiv_nonneg (by omega) (by norm_num)
    have h₂ : (0 : ℤ) ≤ ((n : ℤ).tmod 3600).tdiv 60 :=
      Int.tdiv_nonneg (Int.tmod_nonneg _ (by omega)) (by norm_num)
    split at hlong <;> omega

/-! ### The invariant -/

/-- What is known about a request that `makeConnection` sent. -/
structure Traced (listings : List Listing) (req : Request) (h : History) (op : Op) : Prop where
  informed : Informed listings h
  licensed : Licensed h op
  sent : ∃ stack user, request stack user op = some req

structure Listing.Sound (l : Listing) (clock : ℤ) : Prop where
  now : l.now ≤ clock
  past : Past l.config l.now
  size : l.config.length ≤ maxConnections

structure Inv (w : World) : Prop where
  past : Past w.machine.config w.clock
  size : w.machine.config.length ≤ maxConnections
  listings : ∀ l ∈ w.listings, l.Sound w.clock
  clients : ∀ c ∈ w.clients, Prog.wp Licensed c.todo (fun _ _ => True) c.seen ∧
    Informed w.listings c.seen
  messages : ∀ m ∈ w.messages, ∀ h op, m.call = some (h, op) → Traced w.listings m.req h op
  pending : ∀ m, w.pending = some m → m ∈ w.messages ∧
    ∀ x, w.machine.phase.request = some x → x = (m.psa, m.req)

theorem Informed.mono {ls ls' : List Listing} {h : History} (hi : Informed ls h) (hsub : ls ⊆ ls') :
    Informed ls' h := by
  intro reply hg
  obtain ⟨l, hl, hd⟩ := hi reply hg
  exact ⟨l, hsub hl, hd⟩

theorem Informed.append {ls : List Listing} {h h' : History} (hi : Informed ls h)
    (hi' : Informed ls h') : Informed ls (h ++ h') := by
  rintro reply ⟨connection, cls, host, replies, hmem, hreply⟩
  rcases List.mem_append.mp hmem with hmem | hmem
  · exact hi reply ⟨connection, cls, host, replies, hmem, hreply⟩
  · exact hi' reply ⟨connection, cls, host, replies, hmem, hreply⟩

theorem Traced.mono {ls ls' : List Listing} {req : Request} {h : History} {op : Op}
    (ht : Traced ls req h op) (hsub : ls ⊆ ls') : Traced ls' req h op :=
  ⟨ht.informed.mono hsub, ht.licensed, ht.sent⟩

theorem Inv.of_init {w : World} (h : WInit w) : Inv w where
  past row hrow hheld := absurd (h.machine.free row hrow).1 hheld
  size := h.size
  listings := by simp [h.listings]
  clients := by simp [h.clients]
  messages := by simp [h.messages]
  pending := by simp [h.pending]

theorem Inv.step {hostsCtl : Addr → List Byte → Bool} {w w' : World} {a : Act} (h : Inv w)
    (hs : WStep hostsCtl w a w') : Inv w' := by
  cases hs.cases with
  | tick hle =>
      exact ⟨h.past.mono hle, h.size, fun l hl => ⟨(h.listings l hl).now.trans hle,
        (h.listings l hl).past, (h.listings l hl).size⟩, h.clients, h.messages, h.pending⟩
  | joins =>
      refine ⟨h.past, h.size, h.listings, fun c hc => ?_, h.messages, h.pending⟩
      rcases List.mem_append.mp hc with hc | hc
      · exact h.clients c hc
      · obtain rfl := List.mem_singleton.mp hc
        refine ⟨makeConnection_licensed .., ?_⟩
        rintro reply ⟨connection, cls, host, replies, hmem, -⟩
        exact absurd hmem (by simp)
  | @sends k psa stack user op next seen req hclient hreq =>
      obtain ⟨hwp, hinf⟩ := h.clients _ hclient
      refine ⟨h.past, h.size, h.listings, h.clients, fun m hm h' op' hcall => ?_, fun m hm => ?_⟩
      · rcases List.mem_append.mp hm with hm | hm
        · exact h.messages m hm h' op' hcall
        · obtain rfl := List.mem_singleton.mp hm
          obtain ⟨rfl, rfl⟩ := Prod.mk.inj (Option.some.inj hcall)
          exact ⟨hinf, hwp.1, stack, user, hreq⟩
      · exact ⟨List.mem_append_left _ (h.pending m hm).1, (h.pending m hm).2⟩
  | @answered _ k user op next seen r hclient hgot =>
      obtain ⟨hwp, hinf⟩ := h.clients _ hclient
      refine ⟨h.past, h.size, h.listings, fun c hc => ?_, h.messages, h.pending⟩
      rcases List.mem_or_eq_of_mem_set hc with hc | rfl
      · exact h.clients c hc
      · exact ⟨hwp.2 r, hinf.append hgot⟩
  | plain =>
      refine ⟨h.past, h.size, h.listings, h.clients, fun m hm h' op' hcall => ?_, fun m hm => ?_⟩
      · rcases List.mem_append.mp hm with hm | hm
        · exact h.messages m hm h' op' hcall
        · obtain rfl := List.mem_singleton.mp hm
          exact absurd hcall (by simp)
      · exact ⟨List.mem_append_left _ (h.pending m hm).1, (h.pending m hm).2⟩
  | @delivered number m machine fx hm hstep =>
      refine ⟨h.past.step hstep (by simp), ?_, h.listings, h.clients, h.messages, fun m' hm' => ?_⟩
      · exact hstep.config_length.le.trans h.size
      · obtain rfl := Option.some.inj hm'
        refine ⟨hm, fun x hx => ?_⟩
        rw [hstep.phase_datagram] at hx
        exact (Option.some.inj hx).symm
  | @daemon e machine fx hrecv hserve hstep =>
      refine ⟨h.past.step hstep fun junk pid now he => absurd he (hserve junk pid now), ?_,
        h.listings, h.clients, h.messages, fun m hm => ⟨(h.pending m hm).1, fun x hx => ?_⟩⟩
      · exact hstep.config_length.le.trans h.size
      -- a sweep or a collection keeps the request that was received
      · rcases hstep.phase_daemon hrecv hserve with hnone | hsame
        · exact absurd (hnone.symm.trans hx) (by simp)
        · exact (h.pending m hm).2 x (hsame.symm.trans hx)
  | @served junk pid machine fx hstep =>
      have hsub : w.listings ⊆ w.listings ++ newListings hostsCtl w junk :=
        List.subset_append_left _ _
      refine ⟨h.past.step hstep fun _ _ _ he => (Event.serve.inj he).2.2.symm, ?_, fun l hl => ?_,
        fun c hc => ⟨(h.clients c hc).1, (h.clients c hc).2.mono hsub⟩,
        fun m hm h' op' hcall => (h.messages m hm h' op' hcall).mono hsub, by simp⟩
      · exact hstep.config_length.le.trans h.size
      · rcases List.mem_append.mp hl with hl | hl
        · exact h.listings l hl
        · unfold newListings at hl
          split at hl
          · split at hl
            · obtain rfl := List.mem_singleton.mp hl
              exact ⟨le_rfl, h.past, h.size⟩
            · exact absurd hl (by simp)
          · exact absurd hl (by simp)

theorem Inv.reachable {hostsCtl : Addr → List Byte → Bool} {w : World}
    (h : Reachable (WStep hostsCtl) WInit w) : Inv w :=
  h.invariant (fun _ => Inv.of_init) fun _ _ _ => Inv.step

/-! ### The reservation -/

/-- The record number `j` of the listing is that of the row number `i`. -/
def Listing.Lists (l : Listing) (j i : ℕ) (row : Condata) : Prop :=
  l.config[i]? = some row ∧ statusMatches l.req row = true ∧
    (matching (l.config.take i) l.req).length = j

theorem exists_row_of_matching {config : List Condata} {req : Request} {j : ℕ}
    (h : j < (matching config req).length) :
    ∃ i, config[i]? = some (matching config req)[j] ∧
      statusMatches req (matching config req)[j] = true ∧
      (matching (config.take i) req).length = j := by
  induction config generalizing j with
  | nil => exact absurd h (by simp [matching])
  | cons row config ih =>
      by_cases hm : statusMatches req row = true
      · have hcons : matching (row :: config) req = row :: matching config req := by
          simp [matching, hm]
        cases j with
        | zero => exact ⟨0, by simp [hcons], by simpa [hcons] using hm, by simp [matching]⟩
        | succ j =>
            have hj : j < (matching config req).length := by simpa [hcons] using h
            obtain ⟨i, hi, hmatch, hbefore⟩ := ih hj
            refine ⟨i + 1, by simpa [hcons] using hi, by simpa [hcons] using hmatch, ?_⟩
            have hcons' : matching (row :: config.take i) req =
                row :: matching (config.take i) req := by simp [matching, hm]
            rw [List.take_succ_cons, hcons', List.length_cons, hbefore]
      · have hcons : matching (row :: config) req = matching config req := by
          simp [matching, hm]
        have hj : j < (matching config req).length := by simpa [hcons] using h
        obtain ⟨i, hi, hmatch, hbefore⟩ := ih hj
        refine ⟨i + 1, by simpa [hcons] using hi, by simpa [hcons] using hmatch, ?_⟩
        have hcons' : matching (row :: config.take i) req = matching (config.take i) req := by
          simp [matching, hm]
        rw [List.take_succ_cons, hcons', hbefore]

/-- A client that has decoded a listing has its matching rows. -/
theorem rows_of_decodes {l : Listing} {reply : Reply} (hd : Decodes l reply)
    (hsize : l.config.length ≤ maxConnections) :
    atoi reply.numconnections.val = (matching l.config l.req).length ∧
      ∀ i (h : i < (matching l.config l.req).length), i < maxNConnections →
        reply.stat i = rowRecord l.now (matching l.config l.req)[i] := by
  obtain ⟨stack, prior, hret, rfl⟩ := hd
  exact recvfromReply_status_accepted l.config l.req l.hostname.val l.now hsize l.junk prior
    stack hret

theorem hostname_of_decodes {l : Listing} {reply : Reply} (hd : Decodes l reply) :
    (cstr reply.hostname.val).length < maxHostName := by
  obtain ⟨_, _, hret, rfl⟩ := hd
  exact recvfromReply_hostname hret

/-- A listing whose times the daemon can print is decoded. -/
theorem exists_decodes (l : Listing) (hsize : l.config.length ≤ maxConnections)
    (he : ElapsedInRange l.config l.now) : ∃ reply, Decodes l reply := by
  have hret := (recvfromReply_status l.config l.req l.hostname.val l.now hsize he l.junk zeroReply
    (fun _ => 0)).1
  exact ⟨_, fun _ => 0, zeroReply, hret.trans_ne (by decide), rfl⟩

/-- A decoded record that reports a long hold is that of a row which was held
that long when the reply was made. -/
theorem held_of_decodes {l : Listing} {clock : ℤ} (hl : l.Sound clock) {reply : Reply}
    (hd : Decodes l reply) {j : ℕ} (hj : (j : ℤ) < atoi reply.numconnections.val)
    (hactive : (reply.stat j).active ≠ 0) {minutes : ℤ}
    (hminutes : getMinutes (reply.stat j).contime = some minutes) (hlong : reserveTime ≤ minutes) :
    j < (matching l.config l.req).length ∧ (j < maxNConnections →
      ∃ k old, l.Lists j k old ∧ old.conpid ≠ badPid ∧ reserveTime * 60 ≤ l.now - old.contime) := by
  obtain ⟨hcount, hstat⟩ := rows_of_decodes hd hl.size
  have hlt : j < (matching l.config l.req).length := by
    have := hj.trans_eq hcount
    omega
  refine ⟨hlt, fun h4 => ?_⟩
  obtain ⟨k, hk, hmatch, hbefore⟩ := exists_row_of_matching hlt
  rw [hstat j hlt h4] at hactive hminutes
  generalize (matching l.config l.req)[j] = old at hk hmatch hactive hminutes
  have hheld : old.conpid ≠ badPid := by
    intro hp
    exact hactive (by simp [rowRecord, hp])
  -- the time printed is not negative, as the row was taken or touched in the past
  have hpast := hl.past old (List.mem_of_getElem? hk) hheld
  simp only [rowRecord, hheld, if_false] at hminutes
  exact ⟨k, old, ⟨hk, hmatch, hbefore⟩, hheld, le_of_getMinutes (by omega) hminutes hlong⟩

/-- **Reservations.** When the daemon kills a session because of a break request
of `makeConnection`, the thief had a status reply of the daemon that lists a row
under the names of the request. If the decoder filled that record, the row was
held and untouched for `RESERVETIME` minutes when the reply was made; and if it
is the row of the killed session, and its time was not set since, then so is the
session when it is killed. -/
theorem reservation_respected {hostsCtl : Addr → List Byte → Bool} {w : World}
    (hreach : Reachable (WStep hostsCtl) WInit w) {m : Message} {h : History} {op : Op}
    (hpending : w.pending = some m) (hcall : m.call = some (h, op)) {junk : Reply} {pid p : ℤ}
    {fx : List Effect} {machine : Machine}
    (hs : Step hostsCtl w.machine (.serve junk pid w.clock, fx) machine)
    (hkill : Effect.kill p ∈ fx) :
    ∃ conname conclass host, op = .reqGeneric conname conclass host reqBreakConnection ∧
      ∃ (i : ℕ) (row : Condata), w.machine.config[i]? = some row ∧ row.conpid = p ∧ p ≠ badPid ∧
      ∃ (reply : Reply) (j : ℕ) (l : Listing), Got h reply ∧ l ∈ w.listings ∧ Decodes l reply ∧
        j < (matching l.config l.req).length ∧ (reply.stat j).conname = conname ∧
        (reply.stat j).conclass = conclass ∧
        (j < maxNConnections → ∃ (k : ℕ) (old : Condata), l.Lists j k old ∧ old.conpid ≠ badPid ∧
          reserveTime * 60 ≤ l.now - old.contime ∧
          (k = i → row.contime = old.contime → reserveTime * 60 ≤ w.clock - row.contime)) := by
  have hinv := Inv.reachable hreach
  obtain ⟨hm, hreq⟩ := hinv.pending m hpending
  have ht := hinv.messages m hm h op hcall
  -- the request that is served is the one that was delivered
  obtain ⟨psa, req, hphase⟩ : ∃ psa req, w.machine.phase = .serving psa req := by
    cases hs.cases with
    | received e fx pending _ _ _ he => exact absurd he (by simp)
    | serve _ _ _ psa req r hphase => exact ⟨psa, req, hphase⟩
  obtain ⟨rfl, rfl⟩ : psa = m.psa ∧ req = m.req :=
    Prod.mk.inj (hreq (psa, req) (by rw [hphase]; rfl))
  obtain ⟨-, r, -, rfl, -, hserved⟩ := hs.served hphase
  cases hserved with
  | touched _ _ _ _ _ _ _ _ _ hnone => exact absurd hkill (hnone p)
  | made _ _ _ _ _ _ _ _ _ hnone => exact absurd hkill (hnone p)
  | same hconfig hfork hkills =>
      obtain ⟨-, hcode, i, row, haddr, hheld, rfl⟩ := hkills p hkill
      -- a break request was sent by `reqGeneric`
      obtain ⟨conname, conclass, host, rfl⟩ :
          ∃ conname conclass host, op = .reqGeneric conname conclass host reqBreakConnection := by
        obtain ⟨stack, user, hsent⟩ := ht.sent
        cases op with
        | obtainStatus connection cls host =>
            rw [← Option.some.inj hsent] at hcode
            exact absurd hcode (by simp)
        | reqGeneric connection cls host code =>
            rw [← Option.some.inj hsent] at hcode
            obtain rfl : code = reqBreakConnection := hcode
            exact ⟨_, _, _, rfl⟩
        | _ => exact absurd hsent (by simp [request])
      obtain ⟨stat, ⟨reply, hgot, -, j, hj, rfl⟩, hname, hclass, hactive, minutes, hminutes,
        hlong⟩ :=
        ht.licensed _ _ _ rfl
      obtain ⟨l, hl, hd⟩ := ht.informed reply hgot
      obtain ⟨hlt, hrow⟩ := held_of_decodes (hinv.listings l hl) hd hj hactive hminutes hlong
      refine ⟨_, _, _, rfl, i, row, haddr.2, rfl, hheld, reply, j, l, hgot, hl, hd, hlt,
        hname.symm, hclass.symm, fun h4 => ?_⟩
      obtain ⟨k, old, hlists, hold, hlong'⟩ := hrow h4
      refine ⟨k, old, hlists, hold, hlong', fun _ htime => ?_⟩
      have := (hinv.listings l hl).now
      rw [htime]
      omega

/-! ### A thief -/

/-- A daemon with the rows `argo` and `brig`, both free, on the host `xinu`. -/
def freeWorld : World :=
  { machine := { sampleMachine with daemon := { sampleMachine.daemon with
      hostname := (CharArray.zero _).store (text "xinu") } }
    clock := 0
    clients := []
    messages := []
    listings := []
    pending := none }

theorem freeWorld_init : WInit freeWorld where
  machine := ⟨by decide, by simp [freeWorld, sampleMachine], by simp [freeWorld, sampleMachine], rfl⟩
  size := by decide
  clients := rfl
  messages := rfl
  listings := rfl
  pending := rfl

def argoBuffers : Buffers :=
  ⟨some ((CharArray.zero _).strncpy (text "argo") maxConnectionName),
    some ((CharArray.zero _).strncpy (text "mips") maxClassName),
    some ((CharArray.zero _).strncpy (text "xinu") maxHostName)⟩

/-- Only the connection `brig` cannot be had. -/
def sampleAnswer (op : Op) : Option (Res op) :=
  match op with
  | .obtainStatus _ _ _ => none
  | .reqGeneric connection _ _ _ =>
      if connection = text "brig" then some none
      else some (some { zeroReply with
        details := Mem.ofList (text "4000 : connect port") fun _ => 0 })
  | .connectTCP _ _ => some (5 : ℤ)
  | .rand => some (0 : ℕ)
  | .usleep _ => some ()
  | .undefined => none

/-- The daemon handles a message and nobody exits. -/
def handled (number : ℕ) (pid : ℤ) : List Act :=
  [.delivered number, .daemon .noneDead, .served zeroReply pid]

/-- Ann makes `argo` at 100. At 700 bob asks for the status, fails to get `brig`,
and sends a break of `argo`; then ann's keep-alive is sent. -/
def annThenBob : List Act :=
  [.tick 100,
    .joins none (text "ann") (CharArray.zero _) argoBuffers 0, .sends 0 sampleAddr zeroRequest] ++
  handled 0 7 ++
  [.answered 0 sampleAnswer, .answered 0 sampleAnswer, .tick 700,
    .joins none (text "bob") (CharArray.zero _) emptyBuffers 0, .sends 1 sampleAddr zeroRequest] ++
  handled 1 (-1) ++
  [.arrives 1 [⟨0, fun _ => 0, zeroReply⟩], .answered 1 sampleAnswer,
    .sends 1 sampleAddr zeroRequest, .answered 1 sampleAnswer, .answered 1 sampleAnswer,
    .sends 1 sampleAddr zeroRequest, .keepalive 0 sampleAddr zeroRequest]

/-- The break arrives; `touched` tells whether ann's keep-alive arrives before it. -/
def breakArrives (touched : Bool) : List Act :=
  annThenBob ++ (if touched then handled 4 (-1) else []) ++ [.delivered 3, .daemon .noneDead]

def worldAfter (acts : List Act) : Option World := runFn (wstep noWrappers) freeWorld acts

theorem reachable_of_worldAfter {acts : List Act} {w : World} (h : worldAfter acts = some w) :
    Reachable (WStep noWrappers) WInit w :=
  ⟨freeWorld, acts, freeWorld_init, Run.of_runFn h⟩

/-- What is seen of a world in which a message is about to be served. -/
structure Scene where
  op : Option Op
  rows : List (ℤ × List Byte × ℤ)
  clock : ℤ
  kills : Option Bool
  deriving DecidableEq

def World.scene (w : World) : Scene :=
  { op := w.pending.bind fun m => m.call.map Prod.snd
    rows := w.machine.config.map fun row => (row.conpid, row.userName, row.contime)
    clock := w.clock
    kills := (step noWrappers w.machine (.serve zeroReply (-1) w.clock)).map fun r =>
      decide (Effect.kill 7 ∈ r.2) }

/-- The scene when the break of `argo`, which ann touched at `contime`, is served at 700. -/
def annScene (contime : ℤ) : Scene :=
  { op := some (.reqGeneric (text "argo") (text "mips") (text "xinu") reqBreakConnection)
    rows := [(7, text "ann", contime), (badPid, [], 0)]
    clock := 700
    kills := some true }

/-- In such a world the break of the thief is about to kill ann's session. -/
theorem exists_of_scene (acts : List Act) (contime : ℤ)
    (hscene : (worldAfter acts).map World.scene = some (annScene contime)) :
    ∃ w m h fx machine, Reachable (WStep noWrappers) WInit w ∧ w.pending = some m ∧
      m.call = some (h, .reqGeneric (text "argo") (text "mips") (text "xinu") reqBreakConnection) ∧
      Step noWrappers w.machine (.serve zeroReply (-1) w.clock, fx) machine ∧
      Effect.kill 7 ∈ fx ∧ w.clock = 700 ∧
      w.machine.config.map (fun row => (row.conpid, row.userName, row.contime)) =
        [(7, text "ann", contime), (badPid, [], 0)] := by
  obtain ⟨w, hw, hs⟩ := Option.map_eq_some_iff.mp hscene
  obtain ⟨hop, hrows, hclock, hkills⟩ := Scene.mk.inj hs
  obtain ⟨m, hm, hcall⟩ := Option.bind_eq_some_iff.mp hop
  obtain ⟨⟨h, op⟩, hc, rfl⟩ := Option.map_eq_some_iff.mp hcall
  obtain ⟨⟨machine, fx⟩, hstep, hkill⟩ := Option.map_eq_some_iff.mp hkills
  exact ⟨w, m, h, fx, machine, reachable_of_worldAfter hw, hm, hc, hstep, of_decide_eq_true hkill,
    hclock, hrows⟩

theorem reservation_respected_ann :
    ∃ w m h op fx machine, Reachable (WStep noWrappers) WInit w ∧ w.pending = some m ∧
      m.call = some (h, op) ∧ Step noWrappers w.machine (.serve zeroReply (-1) w.clock, fx) machine ∧
      Effect.kill 7 ∈ fx ∧
      ∃ conname conclass host, op = .reqGeneric conname conclass host reqBreakConnection ∧
        ∃ (i : ℕ) (row : Condata), w.machine.config[i]? = some row ∧ row.conpid = 7 ∧
          (7 : ℤ) ≠ badPid ∧
        ∃ (reply : Reply) (j : ℕ) (l : Listing), Got h reply ∧ l ∈ w.listings ∧ Decodes l reply ∧
          j < (matching l.config l.req).length ∧ (reply.stat j).conname = conname ∧
          (reply.stat j).conclass = conclass ∧
          (j < maxNConnections → ∃ (k : ℕ) (old : Condata), l.Lists j k old ∧ old.conpid ≠ badPid ∧
            reserveTime * 60 ≤ l.now - old.contime ∧
            (k = i → row.contime = old.contime → reserveTime * 60 ≤ w.clock - row.contime)) := by
  obtain ⟨w, m, h, fx, machine, hreach, hm, hcall, hs, hkill, -, -⟩ :=
    exists_of_scene (breakArrives false) 100 (by decide +kernel)
  exact ⟨w, m, h, _, fx, machine, hreach, hm, hcall, hs, hkill,
    reservation_respected hreach hm hcall hs hkill⟩

/-- Ann's keep-alive comes between bob's look at the status and his break: her
session is killed at the time it was touched. -/
theorem reservation_broken :
    ∃ (w : World) (m : Message) (h : History) (fx : List Effect) (machine : Machine) (row : Condata),
      Reachable (WStep noWrappers) WInit w ∧ w.pending = some m ∧
      m.call = some (h, .reqGeneric (text "argo") (text "mips") (text "xinu") reqBreakConnection) ∧
      Step noWrappers w.machine (.serve zeroReply (-1) w.clock, fx) machine ∧
      row ∈ w.machine.config ∧ Effect.kill row.conpid ∈ fx ∧ row.userName = text "ann" ∧
      ¬reserveTime * 60 ≤ w.clock - row.contime := by
  obtain ⟨w, m, h, fx, machine, hreach, hm, hcall, hs, hkill, hclock, hrows⟩ :=
    exists_of_scene (breakArrives true) 700 (by decide +kernel)
  have hmem : (7, text "ann", (700 : ℤ)) ∈
      w.machine.config.map fun row => (row.conpid, row.userName, row.contime) := by
    rw [hrows]
    exact List.mem_cons_self
  obtain ⟨row, hrow, hvalues⟩ := List.mem_map.mp hmem
  obtain ⟨hpid, hrest⟩ := Prod.mk.inj hvalues
  obtain ⟨huser, htime⟩ := Prod.mk.inj hrest
  refine ⟨w, m, h, fx, machine, row, hreach, hm, hcall, hs, hrow, by rwa [hpid], huser, ?_⟩
  rw [hclock, htime]
  decide

end XinuConsole.Reservation
