import XinuConsole.Correlation.Network

/-!
Which reply a call gets.

As long as no call from an address has given up there, at most one token is on
its way to the address, and it belongs to the call that waits there
(`OnlyCurrent`). A call that gives up leaves its token behind, and the next
call from the address takes the late reply for its own.
-/

namespace XinuConsole.Correlation

open Lib ConnectUtils Consoled ReqGeneric

variable {Host : Type}

/-- The call gave up waiting at the address. -/
def Progress.GaveUp (p : Progress Host) (a : Addr) : Prop := ∃ sock, p = .gaveUp sock ∧ sock.psa = a

/-! ### What is on its way to one address -/

/-- At most one token is on its way to `a`, one of the request of the call
number `n`, which waits at `a`. -/
structure OnlyCurrent (n : ℕ) (running : Option (Running Host)) (tokens : List (Token Host))
    (a : Addr) : Prop where
  once : tokens.countP (fun tk => tk.psa = a) ≤ 1
  current : ∀ tk ∈ tokens, tk.psa = a → ∃ r sock, running = some r ∧ r.progress = .waiting sock ∧
    sock.psa = a ∧ tk.tag = some n ∧ tk.req = r.req

theorem onlyCurrent_of_none {tokens : List (Token Host)} {a : Addr}
    (h : ∀ tk ∈ tokens, tk.psa ≠ a) (n : ℕ) (running : Option (Running Host)) :
    OnlyCurrent n running tokens a := by
  have hzero : tokens.countP (fun tk => tk.psa = a) = 0 :=
    List.countP_eq_zero.mpr fun tk htk => by simpa using h tk htk
  exact ⟨by omega, fun tk htk htka => absurd htka (h tk htk)⟩

/-- Where no call waits, nothing is on its way. -/
theorem OnlyCurrent.none {n : ℕ} {running : Option (Running Host)} {tokens : List (Token Host)}
    {a : Addr} (h : OnlyCurrent n running tokens a)
    (hidle : ∀ r sock, running = some r → r.progress = .waiting sock → sock.psa ≠ a) :
    ∀ tk ∈ tokens, tk.psa ≠ a := by
  intro tk htk htka
  obtain ⟨r, sock, hr, hwait, hsock, -⟩ := h.current tk htk htka
  exact hidle r sock hr hwait hsock

theorem OnlyCurrent.congr {n : ℕ} {r r' : Running Host} {tokens : List (Token Host)} {a : Addr}
    (h : OnlyCurrent n (some r) tokens a) (hprogress : r'.progress = r.progress)
    (hreq : r'.req = r.req) : OnlyCurrent n (some r') tokens a := by
  refine ⟨h.once, fun tk htk htka => ?_⟩
  obtain ⟨r₀, sock, hr, hwait, hsock, htag, htkreq⟩ := h.current tk htk htka
  obtain rfl := Option.some.inj hr
  exact ⟨r', sock, rfl, hprogress.trans hwait, hsock, htag, htkreq.trans hreq.symm⟩

theorem countP_eraseIdx_add {tokens : List (Token Host)} {j : ℕ} {tk : Token Host}
    (hj : tokens[j]? = some tk) (a : Addr) :
    (tokens.eraseIdx j).countP (fun tk => tk.psa = a) + (if tk.psa = a then 1 else 0) =
      tokens.countP (fun tk => tk.psa = a) := by
  obtain ⟨hlt, rfl⟩ := List.getElem?_eq_some_iff.mp hj
  rw [← (List.getElem_cons_eraseIdx_perm hlt).countP_eq, List.countP_cons]
  simp

theorem OnlyCurrent.moved {net : Network Host} {n : ℕ} {running : Option (Running Host)}
    {tokens tokens' : List (Token Host)} {a : Addr} (h : OnlyCurrent n running tokens a)
    (ha : net.ours a = true) (hmoved : Moved net tokens tokens') :
    OnlyCurrent n running tokens' a := by
  cases hmoved with
  | same => exact h
  | lost j =>
      refine ⟨le_trans ?_ h.once, fun tk htk => h.current tk (List.mem_of_mem_eraseIdx htk)⟩
      exact (List.eraseIdx_sublist tokens j).countP_le
  | foreign x hpsa =>
      have hxa : x.psa ≠ a := by
        rintro rfl
        simp [ha] at hpsa
      refine ⟨by simpa [hxa] using h.once, fun tk htk htka => ?_⟩
      rcases List.mem_append.mp htk with htk | htk
      · exact h.current tk htk htka
      · obtain rfl := List.mem_singleton.mp htk
        exact absurd htka hxa
  | replaced j x new hx hlen hnew =>
      have hcount := countP_eraseIdx_add hx a
      have honce := h.once
      refine ⟨?_, fun tk htk htka => ?_⟩
      · rw [List.countP_append]
        by_cases hxa : x.psa = a
        · rw [if_pos hxa] at hcount
          have : new.countP (fun tk => tk.psa = a) ≤ new.length := List.countP_le_length
          omega
        · have : new.countP (fun tk => tk.psa = a) = 0 :=
            List.countP_eq_zero.mpr fun tk htk => by simpa [(hnew tk htk).1.psa] using hxa
          omega
      · rcases List.mem_append.mp htk with htk | htk
        · exact h.current tk (List.mem_of_mem_eraseIdx htk) htka
        · obtain ⟨hfollows, -⟩ := hnew tk htk
          obtain ⟨r, sock, hr, hwait, hsock, htag, hreq⟩ :=
            h.current x (List.mem_of_getElem? hx) (hfollows.psa.symm.trans htka)
          exact ⟨r, sock, hr, hwait, hsock, hfollows.tag.trans htag, hfollows.req.trans hreq⟩

/-- When the waiting call takes its token, nothing is left on its way. -/
theorem OnlyCurrent.taken {n : ℕ} {r : Running Host} {tokens : List (Token Host)} {a : Addr}
    (h : OnlyCurrent n (some r) tokens a) {sock : Socket Host} (hwait : r.progress = .waiting sock)
    {j : ℕ} {tk : Token Host} (hj : tokens[j]? = some tk) (hpsa : tk.psa = sock.psa) :
    ∀ tk' ∈ tokens.eraseIdx j, tk'.psa ≠ a := by
  intro tk' htk' htka
  obtain ⟨r', sock', hr, hwait', hsock, -⟩ := h.current tk' (List.mem_of_mem_eraseIdx htk') htka
  obtain rfl := Option.some.inj hr
  obtain rfl : sock = sock' := Progress.waiting.inj (hwait.symm.trans hwait')
  have hcount := countP_eraseIdx_add hj a
  rw [if_pos (hpsa.trans hsock)] at hcount
  have hpos : 0 < (tokens.eraseIdx j).countP (fun tk => tk.psa = a) :=
    List.countP_pos_iff.mpr ⟨tk', htk', by simpa using htka⟩
  have honce := h.once
  omega

/-! ### The invariant -/

/-- What a call heard is for it, and its own unless an earlier call gave up at
the address. -/
structure Heard (net : Network Host) (earlier : List (Done Host)) (req : Request)
    (sock : Socket Host) (tk : Token Host) : Prop where
  host : tk.host = sock.peer
  psa : tk.psa = sock.psa
  sound : tk.Sound net
  own : (∀ f ∈ earlier, ¬f.progress.GaveUp sock.psa) → tk.tag = some earlier.length ∧ tk.req = req

/-- The progress of a call is that of its socket calls. -/
structure Follows (seen : Talk (Socket Host)) (progress : Progress Host) : Prop where
  silent : Silent seen → progress = .silent
  sent : ∀ h sock dgram, seen = h ++ [⟨.send sock dgram, true⟩] → progress = .waiting sock
  waiting : ∀ sock, progress = .waiting sock → ∃ h dgram, seen = h ++ [⟨.send sock dgram, true⟩]
  heard : ∀ h sock dgram, seen = h ++ [⟨.recv sock, some dgram⟩] →
    ∃ tk source, progress = .heard sock tk ∧ tk.stage = .reply dgram source

/-- The request is the one the call builds. -/
def Builds (call : Call) (req : Request) : Prop :=
  ∃ stack, req = initRequest stack call.user call.code call.connection call.cls

structure RunInv (net : Network Host) (st : Static (Socket Host)) (earlier : List (Done Host))
    (r : Running Host) : Prop where
  builds : Builds r.call r.req
  program : Prog.wp (Orderly st r.req.bytes) r.todo (Ended st r.req.bytes r.stack r.prior) r.seen
  sockets : ∀ sock, Known st r.seen sock → net.ours sock.psa = true
  follows : Follows r.seen r.progress
  heard : ∀ sock tk, r.progress = .heard sock tk → Heard net earlier r.req sock tk

/-- What is known of a call that has returned. -/
structure Settled (net : Network Host) (earlier : List (Done Host)) (f : Done Host) : Prop where
  builds : Builds f.call f.req
  heard : ∀ sock tk, f.progress = .heard sock tk → Heard net earlier f.req sock tk
  accepted : ∀ reply, f.result = some reply → ∃ sock tk dgram source stack prior,
    f.progress = .heard sock tk ∧ tk.stage = .reply dgram source ∧
      accept stack (some dgram) prior = some reply

/-- No call has given up at the address. -/
def State.NeverGaveUp (s : State Host) (a : Addr) : Prop :=
  (∀ f ∈ s.finished, ¬f.progress.GaveUp a) ∧ ∀ r, s.running = some r → ¬r.progress.GaveUp a

structure Inv (net : Network Host) (s : State Host) : Prop where
  sound : ∀ tk ∈ s.tokens, tk.Sound net
  cached : ∀ sock, s.static.sock = some sock → net.ours sock.psa = true
  running : ∀ r, s.running = some r → RunInv net s.static s.finished r
  quiet : ∀ a, net.ours a = true → s.NeverGaveUp a →
    OnlyCurrent s.finished.length s.running s.tokens a
  finished : ∀ i f, s.finished[i]? = some f → Settled net (s.finished.take i) f

/-! ### The steps of the client -/

theorem last_eq {h h' : Talk (Socket Host)} {a b : Answered (SockOp (Socket Host)) SockRes}
    (he : h ++ [a] = h' ++ [b]) : a = b := by
  simpa using List.append_inj_right' he rfl

/-- A call that connects or closes sockets has not sent anything. -/
theorem Follows.prepares {seen : Talk (Socket Host)} {progress : Progress Host}
    (h : Follows seen progress) (hs : Silent seen) {op : SockOp (Socket Host)} (r : SockRes op)
    (hsend : ∀ sock dgram, op ≠ .send sock dgram) (hrecv : ∀ sock, op ≠ .recv sock) :
    Follows (seen ++ [⟨op, r⟩]) progress where
  silent _ := h.silent hs
  sent h' sock dgram he := absurd (congrArg Answered.op (last_eq he)) (hsend sock dgram)
  waiting sock hwait := by
    rw [h.silent hs] at hwait
    exact absurd hwait (by simp)
  heard h' sock dgram he := absurd (congrArg Answered.op (last_eq he)) (hrecv sock)

theorem Follows.refused {seen : Talk (Socket Host)} {progress : Progress Host}
    (h : Follows seen progress) (hs : Silent seen) (sock : Socket Host) (dgram : List Byte) :
    Follows (seen ++ [⟨.send sock dgram, false⟩]) progress where
  silent _ := h.silent hs
  sent h' sock' dgram' he := by simpa using last_eq he
  waiting sock' hwait := by
    rw [h.silent hs] at hwait
    exact absurd hwait (by simp)
  heard h' sock' dgram' he := by simpa using last_eq he

theorem not_silent {seen : Talk (Socket Host)} {op : SockOp (Socket Host)} {r : SockRes op}
    (h : (∃ sock dgram, op = .send sock dgram) ∨ ∃ sock, op = .recv sock) :
    ¬Silent (seen ++ [⟨op, r⟩]) := by
  intro hs
  obtain ⟨hsend, hrecv⟩ := hs ⟨op, r⟩ (by simp)
  rcases h with ⟨sock, dgram, rfl⟩ | ⟨sock, rfl⟩
  · exact hsend sock dgram rfl
  · exact hrecv sock rfl

theorem follows_sent (seen : Talk (Socket Host)) (sock : Socket Host) (dgram : List Byte) :
    Follows (seen ++ [⟨.send sock dgram, true⟩]) (.waiting sock) where
  silent hs := absurd hs (not_silent (.inl ⟨sock, dgram, rfl⟩))
  sent h' sock' dgram' he := by
    have := last_eq he
    simp_all
  waiting sock' hwait := by
    obtain rfl := Progress.waiting.inj hwait
    exact ⟨seen, dgram, rfl⟩
  heard h' sock' dgram' he := by simpa using last_eq he

theorem follows_received (seen : Talk (Socket Host)) (sock : Socket Host) {tk : Token Host}
    {dgram : List Byte} {source : Option PortChild} (hstage : tk.stage = .reply dgram source) :
    Follows (seen ++ [⟨.recv sock, some dgram⟩]) (.heard sock tk) where
  silent hs := absurd hs (not_silent (.inr ⟨sock, rfl⟩))
  sent h' sock' dgram' he := by simpa using last_eq he
  waiting sock' hwait := absurd hwait (by simp)
  heard h' sock' dgram' he := by
    have := last_eq he
    simp only [Answered.mk.injEq, SockOp.recv.injEq] at this
    obtain ⟨rfl, hd⟩ := this
    obtain rfl : dgram = dgram' := by simpa using hd
    exact ⟨tk, source, rfl, hstage⟩

theorem follows_timedOut (seen : Talk (Socket Host)) (sock : Socket Host) :
    Follows (seen ++ [⟨.recv sock, none⟩]) (.gaveUp sock) where
  silent hs := absurd hs (not_silent (.inr ⟨sock, rfl⟩))
  sent h' sock' dgram' he := by simpa using last_eq he
  waiting sock' hwait := absurd hwait (by simp)
  heard h' sock' dgram' he := by
    have := last_eq he
    simp only [Answered.mk.injEq, SockOp.recv.injEq] at this
    obtain ⟨rfl, hd⟩ := this
    simp at hd

section steps

variable {net : Network Host} {s : State Host} {call : Call} {req : Request} {stack : Mem}
  {prior : Reply} {seen : Talk (Socket Host)} {progress : Progress Host}

theorem Inv.begins (hI : Inv net s) (hnone : s.running = none) (call : Call) (req : Request)
    (stack : Mem) (prior : Reply) :
    Inv net { s with running := some ⟨call, initRequest req call.user call.code call.connection
      call.cls, stack, prior, [], .silent, reqGeneric req call.user stack prior s.static
      call.connection call.cls call.host call.code⟩ } := by
  refine ⟨hI.sound, hI.cached, fun r hr => ?_, fun a ha hnever => ?_, hI.finished⟩
  · obtain rfl := Option.some.inj hr
    refine ⟨⟨req, rfl⟩, reqGeneric_spec .., fun sock hknown => ?_,
      ⟨fun _ => rfl, by simp, by simp, by simp⟩, by simp⟩
    rcases hknown with hcached | ⟨host, hmem⟩
    · exact hI.cached sock hcached
    · exact absurd hmem (by simp)
  · have hquiet := hI.quiet a ha ⟨hnever.1, by simp [hnone]⟩
    exact onlyCurrent_of_none (hquiet.none (by simp [hnone])) _ _

/-- The address stays quiet as long as the call makes no progress. -/
theorem Inv.onlyCurrent (hI : Inv net s) {r r' : Running Host} (hr : s.running = some r)
    (hprogress : r'.progress = r.progress) (hreq : r'.req = r.req) {a : Addr}
    (ha : net.ours a = true) (hnever : State.NeverGaveUp { s with running := some r' } a) :
    OnlyCurrent s.finished.length (some r') s.tokens a := by
  have hquiet := hI.quiet a ha ⟨hnever.1, fun r₀ hr₀ => ?_⟩
  · rw [hr] at hquiet
    exact hquiet.congr hprogress hreq
  · obtain rfl := Option.some.inj (hr.symm.trans hr₀)
    rw [← hprogress]
    exact hnever.2 r' rfl

theorem Inv.prepares (hI : Inv net s) {op : SockOp (Socket Host)}
    {next : SockRes op → SockProg (Socket Host) (Option Reply × Static (Socket Host))}
    (hr : s.running = some ⟨call, req, stack, prior, seen, progress, .call op next⟩)
    (hs : Silent seen) (res : SockRes op) (hsend : ∀ sock dgram, op ≠ .send sock dgram)
    (hrecv : ∀ sock, op ≠ .recv sock)
    (hours : ∀ sock host, (⟨op, res⟩ : Answered (SockOp (Socket Host)) SockRes) =
      ⟨.connectUDP host, some sock⟩ → net.ours sock.psa = true) :
    Inv net { s with
      running := some ⟨call, req, stack, prior, seen ++ [⟨op, res⟩], progress, next res⟩ } := by
  have hrun := hI.running _ hr
  refine ⟨hI.sound, hI.cached, fun r hr' => ?_, fun a ha hnever => ?_, hI.finished⟩
  · obtain rfl := Option.some.inj hr'
    refine ⟨hrun.builds, hrun.program.2 res, fun sock hknown => ?_,
      hrun.follows.prepares hs res hsend hrecv, hrun.heard⟩
    rcases hknown with hcached | ⟨host, hmem⟩
    · exact hI.cached sock hcached
    · rcases List.mem_append.mp hmem with hmem | hmem
      · exact hrun.sockets sock (.inr ⟨host, hmem⟩)
      · exact hours sock host (List.mem_singleton.mp hmem).symm
  · refine hI.onlyCurrent hr ?_ ?_ ha hnever <;> rfl

theorem Inv.refused (hI : Inv net s) {sock : Socket Host} {dgram : List Byte}
    {next : Bool → SockProg (Socket Host) (Option Reply × Static (Socket Host))}
    (hr : s.running = some ⟨call, req, stack, prior, seen, progress, .call (.send sock dgram) next⟩) :
    Inv net { s with running := some ⟨call, req, stack, prior, seen ++ [⟨.send sock dgram, false⟩],
      progress, next false⟩ } := by
  have hrun := hI.running _ hr
  obtain ⟨hs, -⟩ := hrun.program.1
  refine ⟨hI.sound, hI.cached, fun r hr' => ?_, fun a ha hnever => ?_, hI.finished⟩
  · obtain rfl := Option.some.inj hr'
    refine ⟨hrun.builds, hrun.program.2 false, fun sock' hknown => ?_,
      hrun.follows.refused hs sock dgram, hrun.heard⟩
    refine hrun.sockets sock' (hknown.imp_right fun ⟨host, hmem⟩ => ⟨host, ?_⟩)
    simpa using hmem
  · refine hI.onlyCurrent hr ?_ ?_ ha hnever <;> rfl

/-- Nothing was on its way to the socket when the request went out. -/
theorem Inv.sent (hI : Inv net s) {sock : Socket Host} {dgram : List Byte}
    {next : Bool → SockProg (Socket Host) (Option Reply × Static (Socket Host))}
    (hr : s.running = some ⟨call, req, stack, prior, seen, progress, .call (.send sock dgram) next⟩)
    {sent : Request} (hsent : recvfromRequest dgram = some sent) :
    Inv net { s with
      running := some ⟨call, req, stack, prior, seen ++ [⟨.send sock dgram, true⟩], .waiting sock,
        next true⟩
      tokens := s.tokens ++ [⟨some s.finished.length, sock.peer, sock.psa, sent, .request⟩] } := by
  have hrun := hI.running _ hr
  obtain ⟨hs, hknown, hbytes⟩ := hrun.program.1
  obtain rfl : req = sent := by
    rw [hbytes, recvfromRequest_bytes] at hsent
    exact Option.some.inj hsent
  have hsilent := hrun.follows.silent hs
  obtain rfl : progress = .silent := hsilent
  refine ⟨fun tk htk => ?_, hI.cached, fun r hr' => ?_, fun a ha hnever => ?_, hI.finished⟩
  · rcases List.mem_append.mp htk with htk | htk
    · exact hI.sound tk htk
    · obtain rfl := List.mem_singleton.mp htk
      trivial
  · obtain rfl := Option.some.inj hr'
    refine ⟨hrun.builds, hrun.program.2 true, fun sock' hknown => ?_, follows_sent seen sock dgram,
      by simp⟩
    refine hrun.sockets sock' (hknown.imp_right fun ⟨host, hmem⟩ => ⟨host, ?_⟩)
    simpa using hmem
  · have hquiet := hI.quiet a ha ⟨hnever.1, by simp [hr, Progress.GaveUp]⟩
    -- before the send no call waited, so a quiet address had nothing on its way
    have hnone := hquiet.none fun r sock' hr' hwait => by
      obtain rfl := Option.some.inj (hr.symm.trans hr')
      exact absurd hwait (by simp)
    have hzero : s.tokens.countP (fun tk => tk.psa = a) = 0 :=
      List.countP_eq_zero.mpr fun tk htk => by simpa using hnone tk htk
    refine ⟨?_, fun tk htk htka => ?_⟩
    · rw [List.countP_append, hzero, Nat.zero_add]
      exact List.countP_le_length
    · rcases List.mem_append.mp htk with htk | htk
      · exact absurd htka (hnone tk htk)
      · obtain rfl := List.mem_singleton.mp htk
        exact ⟨_, sock, rfl, rfl, htka, rfl, rfl⟩

/-- A call that receives waits for the request it has sent. -/
theorem Inv.waiting (hI : Inv net s) {sock : Socket Host}
    {next : Option (List Byte) → SockProg (Socket Host) (Option Reply × Static (Socket Host))}
    (hr : s.running = some ⟨call, req, stack, prior, seen, progress, .call (.recv sock) next⟩) :
    progress = .waiting sock := by
  have hrun := hI.running _ hr
  obtain ⟨⟨h, hseen⟩, -⟩ := hrun.program.1
  exact hrun.follows.sent h sock _ hseen

theorem Inv.received (hI : Inv net s) {sock : Socket Host}
    {next : Option (List Byte) → SockProg (Socket Host) (Option Reply × Static (Socket Host))}
    (hr : s.running = some ⟨call, req, stack, prior, seen, progress, .call (.recv sock) next⟩)
    {j : ℕ} {tk : Token Host} (hj : s.tokens[j]? = some tk) {dgram : List Byte}
    {source : Option PortChild} (hstage : tk.stage = .reply dgram source)
    (hhost : tk.host = sock.peer) (hpsa : tk.psa = sock.psa) :
    Inv net { s with
      running := some ⟨call, req, stack, prior, seen ++ [⟨.recv sock, some dgram⟩], .heard sock tk,
        next (some dgram)⟩
      tokens := s.tokens.eraseIdx j } := by
  have hrun := hI.running _ hr
  obtain rfl : progress = .waiting sock := hI.waiting hr
  have hours := hrun.sockets sock hrun.program.1.2
  refine ⟨fun tk htk => hI.sound tk (List.mem_of_mem_eraseIdx htk), hI.cached, fun r hr' => ?_,
    fun a ha hnever => ?_, hI.finished⟩
  · obtain rfl := Option.some.inj hr'
    refine ⟨hrun.builds, hrun.program.2 (some dgram), fun sock' hknown => ?_,
      follows_received seen sock hstage, fun sock' tk' he => ?_⟩
    · refine hrun.sockets sock' (hknown.imp_right fun ⟨host, hmem⟩ => ⟨host, ?_⟩)
      simpa using hmem
    -- a socket where nobody gave up had the token of this call only
    · obtain ⟨rfl, rfl⟩ := Progress.heard.inj he
      refine ⟨hhost, hpsa, hI.sound _ (List.mem_of_getElem? hj), fun hearlier => ?_⟩
      have hquiet := hI.quiet sock.psa hours ⟨hearlier, by simp [hr, Progress.GaveUp]⟩
      obtain ⟨r, sock', hr', -, -, htag, hreq⟩ :=
        hquiet.current _ (List.mem_of_getElem? hj) hpsa
      obtain rfl := Option.some.inj (hr.symm.trans hr')
      exact ⟨htag, hreq⟩
  · have hquiet := hI.quiet a ha ⟨hnever.1, by simp [hr, Progress.GaveUp]⟩
    rw [hr] at hquiet
    exact onlyCurrent_of_none (hquiet.taken rfl hj hpsa) _ _

theorem Inv.timedOut (hI : Inv net s) {sock : Socket Host}
    {next : Option (List Byte) → SockProg (Socket Host) (Option Reply × Static (Socket Host))}
    (hr : s.running = some ⟨call, req, stack, prior, seen, progress, .call (.recv sock) next⟩) :
    Inv net { s with running := some ⟨call, req, stack, prior, seen ++ [⟨.recv sock, none⟩],
      .gaveUp sock, next none⟩ } := by
  have hrun := hI.running _ hr
  obtain rfl : progress = .waiting sock := hI.waiting hr
  refine ⟨hI.sound, hI.cached, fun r hr' => ?_, fun a ha hnever => ?_, hI.finished⟩
  · obtain rfl := Option.some.inj hr'
    refine ⟨hrun.builds, hrun.program.2 none, fun sock' hknown => ?_, follows_timedOut seen sock,
      by simp⟩
    refine hrun.sockets sock' (hknown.imp_right fun ⟨host, hmem⟩ => ⟨host, ?_⟩)
    simpa using hmem
  · have hquiet := hI.quiet a ha ⟨hnever.1, by simp [hr, Progress.GaveUp]⟩
    -- what is left behind at the socket is not asked about: this call gave up there
    refine onlyCurrent_of_none (hquiet.none fun r sock' hr' hwait hsock => ?_) _ _
    obtain rfl := Option.some.inj (hr.symm.trans hr')
    obtain rfl := Progress.waiting.inj hwait
    exact hnever.2 _ rfl ⟨sock, rfl, hsock⟩

theorem Inv.returned (hI : Inv net s) {result : Option Reply} {static : Static (Socket Host)}
    (hr : s.running = some ⟨call, req, stack, prior, seen, progress, .ret (result, static)⟩) :
    Inv net { s with
      static := static
      running := none
      finished := s.finished ++ [⟨call, req, progress, result⟩] } := by
  have hrun := hI.running _ hr
  have hended : Ended s.static req.bytes stack prior seen (result, static) := hrun.program
  refine ⟨hI.sound, fun sock hsock => hrun.sockets sock (hended.cached sock hsock), by simp,
    fun a ha hnever => ?_, fun i f hf => ?_⟩
  · have hquiet := hI.quiet a ha
      ⟨fun f hf => hnever.1 f (List.mem_append_left _ hf), fun r hr' => ?_⟩
    · refine onlyCurrent_of_none (hquiet.none fun r sock hr' hwait => ?_) _ _
      obtain rfl := Option.some.inj (hr.symm.trans hr')
      obtain ⟨h, dgram, hseen⟩ := hrun.follows.waiting sock hwait
      exact absurd hseen (hended.awaited h sock dgram)
    · obtain rfl := Option.some.inj (hr.symm.trans hr')
      exact hnever.1 _ (List.mem_append_right _ (List.mem_singleton.mpr rfl))
  · rw [List.getElem?_append] at hf
    split at hf
    · next hi =>
        rw [List.take_append_of_le_length (by omega)]
        exact hI.finished i f hf
    · next hi =>
        obtain ⟨hlast, rfl⟩ := List.getElem?_eq_some_iff.mp hf
        obtain rfl : i = s.finished.length := by
          rw [List.length_singleton] at hlast
          omega
        rw [List.take_left]
        simp only [Nat.sub_self, List.getElem_cons_zero]
        refine ⟨hrun.builds, hrun.heard, fun reply hreply => ?_⟩
        obtain ⟨h, sock, dgram, hseen, haccept⟩ := hended.accepted reply hreply
        obtain ⟨tk, source, hheard, hstage⟩ := hrun.follows.heard h sock dgram hseen
        exact ⟨sock, tk, dgram, source, stack, prior, hheard, hstage, haccept⟩

end steps

theorem Inv.of_init {net : Network Host} {s : State Host} (h : NInit s) : Inv net s where
  sound := by simp [h.tokens]
  cached := by simp [h.sock]
  running := by simp [h.running]
  quiet a _ _ := onlyCurrent_of_none (by simp [h.tokens]) _ _
  finished := by simp [h.finished]

variable [DecidableEq Host]

theorem Inv.client {net : Network Host} {s s' : State Host} {a : Act Host} (hI : Inv net s)
    (h : clientStep net s a = some s') : Inv net s' := by
  unfold clientStep at h
  split at h
  case h_1 call req stack prior =>
    split at h
    · exact absurd h (by simp)
    · next hnone =>
        obtain rfl := Option.some.inj h
        exact hI.begins hnone call req stack prior
  case h_2 sock =>
    split at h
    · next hr =>
        split at h
        · next hopens =>
            obtain rfl := Option.some.inj h
            refine hI.prepares hr (hI.running _ hr).program.1 sock (by simp) (by simp) ?_
            rintro sock' host he
            simp only [Answered.mk.injEq, SockOp.connectUDP.injEq] at he
            obtain ⟨rfl, he⟩ := he
            obtain rfl : sock = some sock' := by simpa using he
            exact hopens.1
        · exact absurd h (by simp)
    · exact absurd h (by simp)
  case h_3 =>
    split at h
    · next hr =>
        obtain rfl := Option.some.inj h
        exact hI.prepares hr (hI.running _ hr).program.1 () (by simp) (by simp) (by simp)
    · exact absurd h (by simp)
  case h_4 ok =>
    split at h
    · next hr =>
        cases ok with
        | true =>
            obtain ⟨sent, hsent, rfl⟩ := Option.map_eq_some_iff.mp h
            exact hI.sent hr hsent
        | false =>
            obtain rfl := Option.some.inj h
            exact hI.refused hr
    · exact absurd h (by simp)
  case h_5 j =>
    split at h
    · next hr hj =>
        split at h
        · next hstage =>
            split at h
            · next hto =>
                obtain rfl := Option.some.inj h
                exact hI.received hr hj hstage hto.1 hto.2
            · exact absurd h (by simp)
        · exact absurd h (by simp)
    · exact absurd h (by simp)
  case h_6 =>
    split at h
    · next hr =>
        obtain rfl := Option.some.inj h
        exact hI.timedOut hr
    · exact absurd h (by simp)
  case h_7 =>
    split at h
    · next hr =>
        obtain rfl := Option.some.inj h
        exact hI.returned hr
    · exact absurd h (by simp)
  case h_8 => exact absurd h (by simp)

theorem Inv.network {net : Network Host} {s s' : State Host} {a : Act Host} (hI : Inv net s)
    (h : networkStep net s a = some s') : Inv net s' := by
  obtain ⟨hmoved, hstatic, hrunning, hfinished⟩ := networkStep_moved hI.sound h
  refine ⟨hmoved.sound hI.sound, ?_, ?_, fun a ha hnever => ?_, ?_⟩
  · rw [hstatic]
    exact hI.cached
  · rw [hrunning, hstatic, hfinished]
    exact hI.running
  · rw [State.NeverGaveUp, hrunning, hfinished] at hnever
    rw [hrunning, hfinished]
    exact (hI.quiet a ha hnever).moved ha hmoved
  · rw [hfinished]
    exact hI.finished

theorem Inv.reachable {net : Network Host} {s : State Host} (h : Reachable (NStep net) NInit s) :
    Inv net s := by
  apply h.invariant (fun _ => Inv.of_init)
  intro s a s' hI hstep
  rcases Option.or_eq_some_iff.mp hstep with h | ⟨-, h⟩
  · exact hI.client h
  · exact hI.network h

/-! ### The reply of a call -/

/-- The call is the make request of a run of `reqTCPConnection`. -/
def Done.Makes (f : Done Host) (h : MakeConnection.History) : Prop :=
  f.call.code = reqMakeConnection ∧ ∃ conname conclass, f.call.connection = some conname ∧
    f.call.cls = some conclass ∧
    ⟨.reqGeneric conname conclass f.call.host reqMakeConnection, f.result⟩ ∈ h

/-- Every port dialled in a run that makes the call is that of the child, and the
names handed back are those of the child's row. An empty class in a request
stands for any. -/
def DialsChild (f : Done Host) (child : PortChild) : Prop :=
  ∀ connection cls host steal stat h fd connection' cls',
    Prog.Runs (MakeConnection.reqTCPConnection connection cls host steal stat) h
      (fd, connection', cls') → f.Makes h →
    ∀ (server : List Byte) (port fd' : ℤ), ⟨.connectTCP server port, fd'⟩ ∈ h →
      server = f.call.host ∧ port = child.port.toNat ∧
        (∀ a ∈ connection', cstr a.val = child.row.conname) ∧
        ∀ a ∈ cls', cstr a.val = [] ∨ cstr a.val = child.row.conclass

omit [DecidableEq Host] in
theorem dialsChild_of_granted {f : Done Host} (hbuilds : Builds f.call f.req) {child : PortChild}
    {hostsCtl : Addr → List Byte → Bool} {psa : Addr}
    (hforked : Forked hostsCtl psa f.req child.pid child.row) {reply : Reply}
    (hreply : f.result = some reply)
    (hport : atoi (reply.details.read 0 maxDetails) = child.port.toNat) : DialsChild f child := by
  intro connection cls host steal stat h fd connection' cls' hruns hmakes server port fd' hdial
  obtain ⟨-, conname, conclass, hconn, hcls, hmade⟩ := hmakes
  obtain ⟨hmakes', hholds, hholds'⟩ :=
    hruns.post (MakeConnection.reqTCPConnection_dials connection cls host steal stat) _ _ _ hdial
  rw [hreply] at hmade
  obtain ⟨rfl, rfl, hserver, hdialled⟩ := hmakes' _ _ _ _ hmade
  obtain ⟨stack, hreq⟩ := hbuilds
  obtain ⟨-, hmatch, -⟩ := hforked.row
  rw [hreq, hconn, hcls] at hmatch
  obtain ⟨hname, hclass⟩ := (conMatches_initRequest _ _ _ _ _ _).mp hmatch
  -- what fits the buffers fits the request
  have hfits : ∀ {b : Option (CharArray 16)} {str : List Byte} {a : CharArray 16},
      MakeConnection.Holds b (cstr str) → a ∈ b → cstr a.val = cstr str ∧
        (cstr str).take 15 = cstr str := by
    intro b str a hb ha
    obtain ⟨a', rfl, hstr, htake⟩ := hb.take (Option.isSome_iff_exists.mpr ⟨a, ha⟩)
    obtain rfl := Option.some.inj ha
    exact ⟨hstr, htake⟩
  refine ⟨hserver, hdialled.trans hport, fun a ha => ?_, fun a ha => ?_⟩
  · obtain ⟨hstr, htake⟩ := hfits hholds ha
    exact hstr.trans (htake.symm.trans hname.symm)
  · obtain ⟨hstr, htake⟩ := hfits hholds' ha
    rw [hstr]
    exact hclass.imp (fun hempty => htake.symm.trans hempty) fun hsame =>
      htake.symm.trans hsame.symm

/-- **Reply correlation.** The reply that a call returns 0 with is an answer of
its server to its address. If no earlier call has given up at the address, then
it is the reply to the very request of the call, and the port in a granted make
request belongs to the child forked for the row that is handed back. -/
theorem reply_correlation {net : Network Host} {s : State Host}
    (h : Reachable (NStep net) NInit s) {i : ℕ} {f : Done Host} (hf : s.finished[i]? = some f)
    {reply : Reply} (hreply : f.result = some reply) :
    ∃ sock tk dgram source stack prior, f.progress = .heard sock tk ∧ tk.host = sock.peer ∧
      tk.psa = sock.psa ∧ tk.stage = .reply dgram source ∧
      ServerReply net.hostsCtl sock.psa tk.req dgram source ∧
      accept stack (some dgram) prior = some reply ∧
      ((∀ f' ∈ s.finished.take i, ¬f'.progress.GaveUp sock.psa) →
        tk.tag = some i ∧ tk.req = f.req ∧ (f.call.code = reqMakeConnection →
          ∃ child, source = some child ∧
            Forked net.hostsCtl sock.psa f.req child.pid child.row ∧ DialsChild f child)) := by
  have hsettled := (Inv.reachable h).finished i f hf
  obtain ⟨sock, tk, dgram, source, stack, prior, hheard, hstage, haccept⟩ :=
    hsettled.accepted reply hreply
  have hheard' := hsettled.heard sock tk hheard
  have hserver : ServerReply net.hostsCtl sock.psa tk.req dgram source := by
    have hsound := hheard'.sound
    rw [Token.Sound, hstage, hheard'.psa] at hsound
    exact hsound
  refine ⟨sock, tk, dgram, source, stack, prior, hheard, hheard'.host, hheard'.psa, hstage, hserver,
    haccept, fun hnever => ?_⟩
  obtain ⟨htag, hreq⟩ := hheard'.own hnever
  have hlength : (s.finished.take i).length = i := by
    obtain ⟨hlt, -⟩ := List.getElem?_eq_some_iff.mp hf
    exact List.length_take_of_le hlt.le
  rw [hlength] at htag
  refine ⟨htag, hreq, fun hcode => ?_⟩
  rw [hreq] at hserver
  have hcode' : f.req.code = reqMakeConnection := by
    obtain ⟨stack', hbuilds⟩ := hsettled.builds
    rw [hbuilds, initRequest_code, hcode]
  obtain ⟨child, hsource, hforked, hport⟩ := hserver.granted hcode' haccept
  exact ⟨child, hsource, hforked, dialsChild_of_granted hsettled.builds hforked hreply hport⟩

/-! ### A late reply -/

/-- One server, `xinu`, and the addresses of one client. -/
def sampleNetwork : Network Unit where
  resolve _ := some ()
  ours a := a = sampleAddr
  hostsCtl := noWrappers

def sampleSocket : Socket Unit := ⟨sampleAddr, ()⟩

/-- No call has been made; the server has the rows `argo` and `brig`. -/
def quietState : State Unit where
  static := ⟨none, CharArray.zero _⟩
  running := none
  finished := []
  tokens := []
  daemons _ := sampleMachine.daemon

def makeCall (conname : String) : Call :=
  ⟨text "ann", some (text conname), some (text "mips"), text "xinu", reqMakeConnection⟩

def zeroMem : Mem := fun _ => 0

/-- A make request of `argo` goes out on a new socket. -/
def asksArgo : List (Act Unit) :=
  [.begins (makeCall "argo") zeroRequest zeroMem zeroReply, .connects (some sampleSocket),
    .sends true]

def inTime : List (Act Unit) :=
  asksArgo ++ [.serves 0 zeroReply 41 100, .childReplies 0 zeroReply 4000, .receives 0, .returns]

def tooLate : List (Act Unit) :=
  asksArgo ++ [.timesOut, .returns, .begins (makeCall "brig") zeroRequest zeroMem zeroReply,
    .sends true, .serves 0 zeroReply 41 100, .childReplies 1 zeroReply 4000, .receives 1, .returns]

/-- What is seen of a call that has returned. -/
structure Scene where
  call : Call
  tag : Option ℕ
  child : Option (List Byte × UInt16)
  port : Option ℤ
  deriving DecidableEq

def Done.scene (f : Done Unit) : Scene where
  call := f.call
  tag := match f.progress with
    | .heard _ tk => tk.tag
    | _ => none
  child := match f.progress with
    | .heard _ ⟨_, _, _, _, .reply _ (some child)⟩ => some (child.row.conname, child.port)
    | _ => none
  port := f.result.map fun reply => atoi (reply.details.read 0 maxDetails)

def stateAfter (acts : List (Act Unit)) : Option (State Unit) :=
  runFn (nstep sampleNetwork) quietState acts

/-- The call for `conname` has heard the reply to the first call. -/
def argoScene (conname : String) : Scene :=
  ⟨makeCall conname, some 0, some (text "argo", 4000), some 4000⟩

theorem exists_of_scene (acts : List (Act Unit)) (i : ℕ) (conname : String)
    (hscene : (stateAfter acts).map (fun s => s.finished[i]?.map Done.scene) =
      some (some (argoScene conname))) :
    ∃ s f reply, Reachable (NStep sampleNetwork) NInit s ∧ s.finished[i]? = some f ∧
      f.call = makeCall conname ∧ f.result = some reply ∧
      atoi (reply.details.read 0 maxDetails) = 4000 ∧
      ∃ sock tk dgram child, f.progress = .heard sock tk ∧ tk.tag = some 0 ∧
        tk.stage = .reply dgram (some child) ∧ child.row.conname = text "argo" ∧
        child.port = 4000 := by
  obtain ⟨s, hs, hf⟩ := Option.map_eq_some_iff.mp hscene
  obtain ⟨f, hf, hseen⟩ := Option.map_eq_some_iff.mp hf
  obtain ⟨hcall, htag, hchild, hport⟩ := Scene.mk.inj hseen
  obtain ⟨reply, hreply, hatoi⟩ := Option.map_eq_some_iff.mp hport
  refine ⟨s, f, reply, ⟨quietState, acts, ⟨rfl, rfl, rfl, rfl⟩, Run.of_runFn hs⟩, hf, hcall, hreply,
    hatoi, ?_⟩
  split at hchild
  · next sock tag host psa req dgram child hheard =>
      rw [hheard] at htag
      obtain ⟨hname, hport⟩ := Prod.mk.inj (Option.some.inj hchild)
      exact ⟨sock, _, dgram, child, hheard, htag, rfl, hname, hport⟩
  · exact absurd hchild (by simp)

theorem reply_correlation_argo :
    ∃ (s : State Unit) (f : Done Unit) (reply : Reply), Reachable (NStep sampleNetwork) NInit s ∧
      s.finished[0]? = some f ∧ f.call = makeCall "argo" ∧ f.result = some reply ∧
      ∃ sock tk dgram source, f.progress = .heard sock tk ∧ tk.stage = .reply dgram source ∧
        ServerReply noWrappers sock.psa tk.req dgram source ∧ tk.tag = some 0 ∧ tk.req = f.req ∧
        ∃ child, source = some child ∧ Forked noWrappers sock.psa f.req child.pid child.row ∧
          DialsChild f child := by
  obtain ⟨s, f, reply, hreach, hf, hcall, hreply, -⟩ :=
    exists_of_scene inTime 0 "argo" (by decide +kernel)
  obtain ⟨sock, tk, dgram, source, -, -, hheard, -, -, hstage, hserver, -, hown⟩ :=
    reply_correlation hreach hf hreply
  obtain ⟨htag, hreq, hchild⟩ := hown (by simp)
  exact ⟨s, f, reply, hreach, hf, hcall, hreply, sock, tk, dgram, source, hheard, hstage, hserver,
    htag, hreq, hchild (by rw [hcall]; rfl)⟩

/-- A free row is asked for, granted and dialled. -/
theorem makeRow_runs (a : CharArray maxConnectionName) (host : List Byte) (stat : StatusreplyData)
    (reply : Reply) (fd : ℤ) (hfree : stat.active = 0)
    (hfit : (cstr stat.conname).length < maxConnectionName) :
    Prog.Runs (MakeConnection.reqTCPConnection (some a) none host false stat)
      [⟨.reqGeneric stat.conname stat.conclass host reqMakeConnection, some reply⟩,
        ⟨.connectTCP host (atoi (reply.details.read 0 maxDetails)), fd⟩]
      (fd, some (a.store (cstr stat.conname ++ [0])), none) := by
  rw [MakeConnection.reqTCPConnection, if_neg (by simp [hfree]), if_neg (by simp)]
  apply Prog.Runs.call
  change Prog.Runs (MakeConnection.copyOut (some a) stat.conname >>= _) _ _
  have hcopy : MakeConnection.copyOut (some a) stat.conname =
      pure (some (a.store (cstr stat.conname ++ [0]))) := if_pos hfit
  rw [hcopy]
  apply Prog.Runs.call
  exact .ret _

/-- The reply to the first call comes during the second: the client dials the
port of the child for `argo` and hands back `brig`. -/
theorem late_reply :
    ∃ (s : State Unit) (f : Done Unit) (reply : Reply), Reachable (NStep sampleNetwork) NInit s ∧
      s.finished[1]? = some f ∧ f.call = makeCall "brig" ∧ f.result = some reply ∧
      (∃ sock tk dgram child, f.progress = .heard sock tk ∧ tk.tag = some 0 ∧
        tk.stage = .reply dgram (some child) ∧ child.row.conname = text "argo" ∧
        child.port = 4000) ∧
      ∃ connection cls stat h fd connection' cls',
        Prog.Runs (MakeConnection.reqTCPConnection connection cls (text "xinu") false stat) h
          (fd, some connection', cls') ∧
        f.Makes h ∧ ⟨.connectTCP (text "xinu") 4000, fd⟩ ∈ h ∧ 0 ≤ fd ∧
        cstr connection'.val = text "brig" := by
  obtain ⟨s, f, reply, hreach, hf, hcall, hreply, hatoi, hlate⟩ :=
    exists_of_scene tooLate 1 "brig" (by decide +kernel)
  have hruns := makeRow_runs (CharArray.zero _) (text "xinu") ⟨text "brig", text "mips", 0, [], []⟩
    reply 5 rfl (by decide)
  rw [hatoi] at hruns
  refine ⟨s, f, reply, hreach, hf, hcall, hreply, hlate, some (CharArray.zero _), none,
    ⟨text "brig", text "mips", 0, [], []⟩, _, 5, _, _, hruns, ?_, by simp, by simp, by decide⟩
  refine ⟨by rw [hcall]; rfl, text "brig", text "mips", by rw [hcall]; rfl, by rw [hcall]; rfl, ?_⟩
  rw [hcall, hreply]
  exact List.mem_cons_self

end XinuConsole.Correlation
