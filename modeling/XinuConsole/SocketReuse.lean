import XinuConsole.ReqGeneric
import XinuConsole.Lib.Run

/-!
The socket that `reqGeneric` keeps between its calls.

The host of the cached socket is remembered as a copy in 64 bytes, so a longer
name is remembered cut to 63 characters. A later call compares its own name
with the copy, not with the name that the socket was connected to.
-/

namespace XinuConsole.ReqGeneric

open Lib ConnectUtils

variable {Sock : Type}

/-- A call of `reqGeneric`: its arguments, the local variables as they are
found and what `getuser` says. -/
structure Invocation where
  req : Request
  user : List Byte
  stack : Mem
  reply : Reply
  connection : Option (List Byte)
  cls : Option (List Byte)
  host : List Byte
  code : Byte

namespace Invocation

/-- The request as it is sent. -/
def bytes (inv : Invocation) : List Byte :=
  (initRequest inv.req inv.user inv.code inv.connection inv.cls).bytes

def program (inv : Invocation) (st : Static Sock) : SockProg Sock (Option Reply × Static Sock) :=
  reqGeneric inv.req inv.user inv.stack inv.reply st inv.connection inv.cls inv.host inv.code

end Invocation

/-- A call and the socket calls it makes. -/
abbrev Call (Sock : Type) := Invocation × Talk Sock

/-- One call after another, whatever the answers are. -/
def CallStep (st : Static Sock) (call : Call Sock) (st' : Static Sock) : Prop :=
  ∃ reply, Prog.Runs (call.1.program st) call.2 (reply, st')

/-- The static variables when the program starts. -/
def Static.initial : Static Sock := ⟨none, CharArray.zero maxHostName⟩

/-- The socket calls of several calls. -/
def talk (calls : List (Call Sock)) : Talk Sock := calls.flatMap Prod.snd

@[simp] theorem talk_nil : talk ([] : List (Call Sock)) = [] := rfl

@[simp] theorem talk_snoc (calls : List (Call Sock)) (call : Call Sock) :
    talk (calls ++ [call]) = talk calls ++ call.2 := by
  simp [talk]

/-! ### What one call does -/

/-- The cached socket is given up. -/
def closing (st : Static Sock) : Talk Sock :=
  match st.sock with
  | none => []
  | some sock => [⟨.close sock, ()⟩]

/-- How a call gets at its socket: it keeps the cached one, or it gives that up
and connects another. -/
inductive Obtains (st : Static Sock) (host : List Byte) : Talk Sock → Static Sock → Prop
  | kept {sock : Sock} : st.sock = some sock → strnequ st.sockhost.val host maxHostName = true →
      Obtains st host [] st
  | replaced (r : Option Sock) :
      (∀ sock, st.sock = some sock → strnequ st.sockhost.val host maxHostName = false) →
      Obtains st host (closing st ++ [⟨.connectUDP host, r⟩])
        ⟨r, (st.sockhost.strncpy host maxHostName).set (maxHostName - 1) 0⟩

/-- What a call does with its socket. -/
inductive Exchange (bytes : List Byte) : Option Sock → Talk Sock → Prop
  | refused : Exchange bytes none []
  | unsent (sock : Sock) : Exchange bytes (some sock) [⟨.send sock bytes, false⟩]
  | sent (sock : Sock) (r : Option (List Byte)) :
      Exchange bytes (some sock) [⟨.send sock bytes, true⟩, ⟨.recv sock, r⟩]

/-- When the calls are made: a socket is connected when the cached one has been
given up, and what is sent goes out on the socket that the call has obtained. -/
def Allowed (st : Static Sock) (host : List Byte) (h : Talk Sock) : SockOp Sock → Prop
  | .connectUDP _ => h = closing st
  | .send sock _ => ∃ st', Obtains st host h st' ∧ st'.sock = some sock
  | _ => True

theorem newSocket_obtains {st : Static Sock} {host : List Byte}
    (hother : ∀ sock, st.sock = some sock → strnequ st.sockhost.val host maxHostName = false) :
    Prog.wp (Allowed st host) (newSocket st host) (Obtains st host) (closing st) := by
  simp only [newSocket, Prog.wp_bind, Prog.wp_perform, Prog.wp_pure]
  exact ⟨rfl, fun r => .replaced r hother⟩

theorem socketFor_obtains (st : Static Sock) (host : List Byte) :
    Prog.wp (Allowed st host) (socketFor st host) (Obtains st host) [] := by
  unfold socketFor
  split
  · next hsock =>
      have hnew : Prog.wp _ _ (Obtains st host) _ := newSocket_obtains (by simp [hsock])
      simpa only [closing, hsock] using hnew
  · next sock hsock =>
      split
      · next hmatch => exact .kept hsock hmatch
      · next hmatch =>
          have hnew : Prog.wp _ _ (Obtains st host) _ :=
            newSocket_obtains fun _ _ => by simpa using hmatch
          simp only [Prog.wp_bind, Prog.wp_perform, List.nil_append]
          refine ⟨trivial, fun _ => ?_⟩
          simpa only [closing, hsock] using hnew

theorem program_calls (inv : Invocation) (st : Static Sock) :
    Prog.wp (Allowed st inv.host) (inv.program st)
      (fun h r => ∃ before after, h = before ++ after ∧ Obtains st inv.host before r.2 ∧
        Exchange inv.bytes r.2.sock after) [] := by
  rw [Invocation.program, reqGeneric, Prog.wp_bind]
  refine Prog.wp_mono ?_ (socketFor_obtains st inv.host)
  rintro before st' - hobtains
  cases hsock : st'.sock with
  | none => exact ⟨before, [], (List.append_nil _).symm, hobtains, hsock ▸ .refused⟩
  | some sock =>
      refine ⟨⟨st', hobtains, hsock⟩, fun sent => ?_⟩
      cases sent with
      | false => exact ⟨before, _, rfl, hobtains, hsock ▸ .unsent sock⟩
      | true =>
          refine ⟨trivial, fun r => ?_⟩
          exact ⟨before, _, List.append_assoc .., hobtains, hsock ▸ .sent sock r⟩

/-- The socket calls of one call of `reqGeneric`, and the static variables it
leaves. -/
theorem callStep_cases {st st' : Static Sock} {inv : Invocation} {h : Talk Sock}
    (hstep : CallStep st (inv, h) st') :
    ∃ before after, h = before ++ after ∧ Obtains st inv.host before st' ∧
      Exchange inv.bytes st'.sock after := by
  obtain ⟨reply, hrun⟩ := hstep
  exact hrun.post (program_calls inv st)

theorem callStep_allowed {st st' : Static Sock} {inv : Invocation} {h h₁ h₂ : Talk Sock}
    {a : Answered (SockOp Sock) (@SockRes Sock)} (hstep : CallStep st (inv, h) st')
    (hh : h = h₁ ++ a :: h₂) : Allowed st inv.host h₁ a.op := by
  obtain ⟨reply, hrun⟩ := hstep
  exact hrun.called (program_calls inv st) hh

theorem Obtains.mem {st st' : Static Sock} {host : List Byte} {h : Talk Sock}
    (ho : Obtains st host h st') {a : Answered (SockOp Sock) (@SockRes Sock)} (ha : a ∈ h) :
    (∃ sock, a.op = .close sock) ∨ a = ⟨.connectUDP host, st'.sock⟩ := by
  cases ho with
  | kept => exact absurd ha List.not_mem_nil
  | replaced r hother =>
      rcases List.mem_append.mp ha with hc | hc
      · left
        unfold closing at hc
        split at hc
        · exact absurd hc List.not_mem_nil
        · next sock hsock => exact ⟨sock, by rw [List.mem_singleton.mp hc]⟩
      · exact .inr (List.mem_singleton.mp hc)

theorem Exchange.not_connect {bytes : List Byte} {cached : Option Sock} {h : Talk Sock}
    (hx : Exchange bytes cached h) (host : List Byte) (r : Option Sock) :
    ⟨.connectUDP host, r⟩ ∉ h := by
  cases hx <;> simp

theorem Exchange.cons {bytes : List Byte} {sock : Sock} {h : Talk Sock}
    (hx : Exchange bytes (some sock) h) : ∃ r rest, h = ⟨.send sock bytes, r⟩ :: rest := by
  cases hx with
  | unsent => exact ⟨false, [], rfl⟩
  | sent _ r => exact ⟨true, [⟨.recv sock, r⟩], rfl⟩

/-- The answers where connecting succeeds and sending does not. -/
def answers (sock : Sock) : (op : SockOp Sock) → Option (SockRes op)
  | .connectUDP _ => some (some sock)
  | .close _ => some ()
  | .send _ _ => some false
  | .recv _ => some none

/-- The first call connects. -/
theorem callStep_connects (inv : Invocation) (sockhost : CharArray maxHostName) (sock : Sock) :
    CallStep ⟨none, sockhost⟩ (inv, [⟨.connectUDP inv.host, some sock⟩, ⟨.send sock inv.bytes, false⟩])
      ⟨some sock, (sockhost.strncpy inv.host maxHostName).set (maxHostName - 1) 0⟩ := by
  refine ⟨none, @Prog.runs_of_exec _ _ _ _ (answers sock) _ _ ?_⟩
  rfl

/-- A call that finds its host in the cache sends at once. -/
theorem callStep_keeps (inv : Invocation) {st : Static Sock} {sock : Sock}
    (hsock : st.sock = some sock) (hmatch : strnequ st.sockhost.val inv.host maxHostName = true) :
    CallStep st (inv, [⟨.send sock inv.bytes, false⟩]) st := by
  obtain ⟨_, sockhost⟩ := st
  obtain rfl : _ = some sock := hsock
  refine ⟨none, @Prog.runs_of_exec _ _ _ _ (answers sock) _ _ ?_⟩
  simp only [Invocation.program, reqGeneric, socketFor, hmatch, if_true]
  rfl

/-- A call without a connection sends nothing. -/
theorem callStep_refused {st st' : Static Sock} {inv : Invocation} {h : Talk Sock}
    (hstep : CallStep st (inv, h) st') {host : List Byte} (hmem : ⟨.connectUDP host, none⟩ ∈ h)
    (sock : Sock) (dgram : List Byte) (r : Bool) : ⟨.send sock dgram, r⟩ ∉ h := by
  obtain ⟨before, after, rfl, hobtains, hexchange⟩ := callStep_cases hstep
  have hsock : st'.sock = none := by
    rcases hobtains.mem ((List.mem_append.mp hmem).resolve_right (hexchange.not_connect _ _)) with
      ⟨s, hs⟩ | heq
    · cases hs
    · simp only [Answered.mk.injEq, SockOp.connectUDP.injEq] at heq
      obtain ⟨rfl, hsock⟩ := heq
      exact (eq_of_heq hsock).symm
  rw [hsock] at hexchange
  cases hexchange
  intro hsend
  rcases hobtains.mem (by simpa using hsend) with ⟨s, hs⟩ | heq
  · cases hs
  · cases heq

/-! ### Names that are cut -/

/-- The second name is what the copy of the first one has kept of it. -/
def CutTo (host host' : List Byte) : Prop :=
  maxHostName ≤ (cstr host).length ∧ cstr host' = (cstr host).take (maxHostName - 1)

/-- No call that has connected to an over-long name comes before one for the
front part of that name. -/
def NoneCut (calls : List (Call Sock)) : Prop :=
  ∀ as inv h inv' h' bs, calls = as ++ (inv, h) :: (inv', h') :: bs →
    ∀ sock, ⟨.connectUDP inv.host, some sock⟩ ∈ h → ¬CutTo inv.host inv'.host

theorem NoneCut.front {as bs : List (Call Sock)} (hn : NoneCut (as ++ bs)) : NoneCut as := by
  rintro as' inv h inv' h' bs' rfl
  exact hn as' inv h inv' h' (bs' ++ bs) (by simp)

/-- Nothing is cut where all names are short. -/
theorem noneCut_of_short {calls : List (Call Sock)}
    (hshort : ∀ call ∈ calls, (cstr call.1.host).length < maxHostName) : NoneCut calls := by
  rintro as inv h inv' h' bs rfl sock - ⟨hlong, -⟩
  exact absurd hlong (not_le.mpr (hshort (inv, h) (by simp)))

/-! ### Whom a socket is connected to -/

section Peer

variable [DecidableEq Sock]

/-- The host that a socket is connected to, after one more socket call. -/
def afterCall (sock : Sock) (host : Option (List Byte)) :
    Answered (SockOp Sock) (@SockRes Sock) → Option (List Byte)
  | ⟨.connectUDP host', r⟩ => if r = some sock then some host' else host
  | ⟨.close sock', _⟩ => if sock' = sock then none else host
  | _ => host

/-- The host that an open socket was connected to. -/
def peer (sock : Sock) (t : Talk Sock) : Option (List Byte) := t.foldl (afterCall sock) none

@[simp] theorem peer_nil (sock : Sock) : peer sock [] = none := rfl

theorem peer_snoc (sock : Sock) (t : Talk Sock) (a : Answered (SockOp Sock) (@SockRes Sock)) :
    peer sock (t ++ [a]) = afterCall sock (peer sock t) a := by
  rw [peer, List.foldl_append]
  rfl

theorem peer_connect (sock : Sock) (t : Talk Sock) (host : List Byte) (r : Option Sock) :
    peer sock (t ++ [⟨.connectUDP host, r⟩]) = if r = some sock then some host else peer sock t :=
  peer_snoc sock t _

/-- Sending and receiving leave the connections alone. -/
theorem peer_exchange {bytes : List Byte} {cached : Option Sock} {h : Talk Sock}
    (hx : Exchange bytes cached h) (sock : Sock) (t : Talk Sock) :
    peer sock (t ++ h) = peer sock t := by
  rw [peer, List.foldl_append]
  cases hx <;> rfl

/-- The sockets open, as the static variables know them: one at most, with a
copy of the name of its host. -/
structure Cached (t : Talk Sock) (st : Static Sock) : Prop where
  host : ∀ sock, st.sock = some sock → ∃ host, peer sock t = some host ∧
    cstr st.sockhost.val = (cstr host).take (maxHostName - 1)
  others : ∀ sock, st.sock ≠ some sock → peer sock t = none

theorem cached_initial : Cached ([] : Talk Sock) Static.initial where
  host := by simp [Static.initial]
  others := by simp

theorem Cached.closing {t : Talk Sock} {st : Static Sock} (hc : Cached t st) (sock : Sock) :
    peer sock (t ++ closing st) = none := by
  unfold ReqGeneric.closing
  cases hsock : st.sock with
  | none => simpa using hc.others sock (by simp [hsock])
  | some sock' =>
      rw [peer_snoc]
      by_cases heq : sock' = sock
      · exact if_pos heq
      · refine (if_neg heq).trans (hc.others sock ?_)
        simpa [hsock] using heq

theorem Cached.obtains {t : Talk Sock} {st st' : Static Sock} {host : List Byte} {h : Talk Sock}
    (hc : Cached t st) (ho : Obtains st host h st') : Cached (t ++ h) st' := by
  cases ho with
  | kept hsock hmatch => simpa using hc
  | replaced r hother =>
      have hpeer : ∀ sock, peer sock (t ++ (ReqGeneric.closing st ++ [⟨.connectUDP host, r⟩])) =
          if r = some sock then some host else none := by
        intro sock
        rw [← List.append_assoc, peer_connect, hc.closing]
      constructor
      · intro sock hsock
        refine ⟨host, (hpeer sock).trans (if_pos hsock), ?_⟩
        exact CharArray.cstr_set_strncpy_full (n := 63) st.sockhost host (Nat.le_refl _)
      · intro sock hsock
        exact (hpeer sock).trans (if_neg hsock)

theorem Cached.step {t : Talk Sock} {st st' : Static Sock} {call : Call Sock}
    (hc : Cached t st) (hstep : CallStep st call st') : Cached (t ++ call.2) st' := by
  obtain ⟨inv, h⟩ := call
  obtain ⟨before, after, rfl, hobtains, hexchange⟩ := callStep_cases hstep
  have hc' := hc.obtains hobtains
  constructor
  · intro sock hsock
    simpa only [← List.append_assoc, peer_exchange hexchange] using hc'.host sock hsock
  · intro sock hsock
    simpa only [← List.append_assoc, peer_exchange hexchange] using hc'.others sock hsock

theorem Cached.run {calls : List (Call Sock)} {st : Static Sock}
    (hrun : Run CallStep Static.initial calls st) : Cached (talk calls) st := by
  refine hrun.invariant_past (J := fun past st => Cached (talk past) st) ?_ [] cached_initial
  intro past st call st' hc hstep
  rw [talk_snoc]
  exact hc.step hstep

/-- The copy is the name that the call asks for. -/
theorem Cached.strnequ_iff {t : Talk Sock} {st : Static Sock} (hc : Cached t st) {sock : Sock}
    {host : List Byte} (hsock : st.sock = some sock) (hpeer : peer sock t = some host)
    (host' : List Byte) : strnequ st.sockhost.val host' maxHostName = true ↔
      cstr host' = (cstr host).take (maxHostName - 1) := by
  obtain ⟨host₀, hpeer₀, hcopy⟩ := hc.host sock hsock
  obtain rfl := Option.some.inj (hpeer₀.symm.trans hpeer)
  rw [Lib.strnequ_iff, hcopy, List.take_take]
  constructor
  · intro htake
    have hlen : (cstr host').length ≤ maxHostName := by
      have := congrArg List.length htake
      simp only [List.length_take, maxHostName] at this ⊢
      omega
    rw [List.take_of_length_le hlen] at htake
    exact htake.symm
  · intro heq
    rw [heq, List.take_take]

/-! ### Requests and the hosts they are meant for -/

/-- Requests go to the host of their call, a refused connection ends the call,
and nothing is open any more when a socket is connected. -/
structure ToItsHost (calls : List (Call Sock)) : Prop where
  sent : ∀ as inv h bs, calls = as ++ (inv, h) :: bs → ∀ h₁ sock dgram r h₂,
    h = h₁ ++ ⟨.send sock dgram, r⟩ :: h₂ →
      ∃ host, peer sock (talk as ++ h₁) = some host ∧ cstr host = cstr inv.host
  refused : ∀ inv h, (inv, h) ∈ calls → ∀ host, ⟨.connectUDP host, none⟩ ∈ h →
    ∀ sock dgram r, ⟨.send sock dgram, r⟩ ∉ h
  replaced : ∀ as inv h bs, calls = as ++ (inv, h) :: bs → ∀ h₁ host r h₂,
    h = h₁ ++ ⟨.connectUDP host, r⟩ :: h₂ → ∀ sock, peer sock (talk as ++ h₁) = none

/-- A cached socket for an over-long name has been connected by the last call. -/
def Recent (past : List (Call Sock)) (st : Static Sock) : Prop :=
  ∀ sock host, st.sock = some sock → peer sock (talk past) = some host →
    maxHostName ≤ (cstr host).length →
      ∃ as inv h, past = as ++ [(inv, h)] ∧ inv.host = host ∧ ⟨.connectUDP host, some sock⟩ ∈ h

/-- The socket of a call is one for its host. -/
theorem peer_of_obtains {past : List (Call Sock)} {st st' : Static Sock} {inv : Invocation}
    {before after : Talk Sock} (hc : Cached (talk past) st) (hr : Recent past st)
    (hn : NoneCut (past ++ [(inv, before ++ after)])) (ho : Obtains st inv.host before st')
    {sock : Sock} (hsock : st'.sock = some sock) :
    ∃ host, peer sock (talk past ++ before) = some host ∧ cstr host = cstr inv.host ∧
      (maxHostName ≤ (cstr host).length → host = inv.host ∧
        ⟨.connectUDP host, some sock⟩ ∈ before) := by
  cases ho with
  | kept hcached hmatch =>
      obtain rfl := Option.some.inj (hcached.symm.trans hsock)
      obtain ⟨host, hpeer, -⟩ := hc.host _ hsock
      have hcut := (hc.strnequ_iff hsock hpeer inv.host).mp hmatch
      have hshort : ¬maxHostName ≤ (cstr host).length := by
        intro hlong
        obtain ⟨as, inv₀, h₀, rfl, rfl, hmem⟩ := hr _ host hsock hpeer hlong
        exact hn as inv₀ h₀ inv ([] ++ after) [] (by simp) _ hmem ⟨hlong, hcut⟩
      refine ⟨host, by simpa using hpeer, ?_, fun hlong => absurd hlong hshort⟩
      rw [hcut, List.take_of_length_le (by omega)]
  | replaced r hother =>
      obtain rfl : r = some sock := hsock
      refine ⟨inv.host, ?_, rfl, fun _ => ⟨rfl, by simp⟩⟩
      rw [← List.append_assoc, peer_connect, if_pos rfl]

theorem Recent.step {past : List (Call Sock)} {st st' : Static Sock} {call : Call Sock}
    (hc : Cached (talk past) st) (hr : Recent past st) (hn : NoneCut (past ++ [call]))
    (hstep : CallStep st call st') : Recent (past ++ [call]) st' := by
  obtain ⟨inv, h⟩ := call
  obtain ⟨before, after, rfl, hobtains, hexchange⟩ := callStep_cases hstep
  intro sock host hsock hpeer hlong
  obtain ⟨host', hpeer', -, hmem⟩ := peer_of_obtains hc hr hn hobtains hsock
  rw [talk_snoc, ← List.append_assoc, peer_exchange hexchange, hpeer'] at hpeer
  obtain rfl := Option.some.inj hpeer
  obtain ⟨rfl, hconnected⟩ := hmem hlong
  exact ⟨past, inv, _, rfl, rfl, List.mem_append_left _ hconnected⟩

theorem Recent.run {calls : List (Call Sock)} {st : Static Sock}
    (hrun : Run CallStep Static.initial calls st) (hn : NoneCut calls) : Recent calls st := by
  have hinv := hrun.invariant_past
    (J := fun past st => NoneCut past → Cached (talk past) st ∧ Recent past st) ?_ [] ?_
  · exact (hinv hn).2
  · intro past st call st' ih hstep hn
    obtain ⟨hc, hr⟩ := ih hn.front
    rw [talk_snoc]
    exact ⟨hc.step hstep, hr.step hc hn hstep⟩
  · exact fun _ => ⟨cached_initial, fun sock host hsock => by simp [Static.initial] at hsock⟩

theorem ToItsHost.of_noneCut {calls : List (Call Sock)} {st : Static Sock}
    (hrun : Run CallStep Static.initial calls st) (hn : NoneCut calls) : ToItsHost calls where
  sent := by
    rintro as inv h bs rfl h₁ sock dgram r h₂ rfl
    obtain ⟨st₁, hrun₁, hrest⟩ := hrun.split
    cases hrest with
    | cons hstep _ =>
        rw [List.append_cons] at hn
        have hn' : NoneCut (as ++ [(inv, h₁ ++ ⟨.send sock dgram, r⟩ :: h₂)]) := hn.front
        obtain ⟨st', hobtains, hsock⟩ := callStep_allowed hstep rfl
        obtain ⟨host, hpeer, hhost, -⟩ :=
          peer_of_obtains (Cached.run hrun₁) (Recent.run hrun₁ hn'.front) hn' hobtains hsock
        exact ⟨host, hpeer, hhost⟩
  refused := by
    intro inv h hmem host hrefused
    obtain ⟨as, bs, rfl⟩ := List.append_of_mem hmem
    obtain ⟨st₁, -, hrest⟩ := hrun.split
    cases hrest with
    | cons hstep _ => exact callStep_refused hstep hrefused
  replaced := by
    rintro as inv h bs rfl h₁ host r h₂ hh sock
    obtain ⟨st₁, hrun₁, hrest⟩ := hrun.split
    cases hrest with
    | cons hstep _ =>
        obtain rfl : h₁ = closing st₁ := callStep_allowed hstep hh
        exact (Cached.run hrun₁).closing sock

/-- A call that has connected a socket leaves it in the cache. -/
theorem connected_of_mem {t : Talk Sock} {st st' : Static Sock} {inv : Invocation}
    {before after : Talk Sock} (ho : Obtains st inv.host before st')
    (hx : Exchange inv.bytes st'.sock after) {sock : Sock}
    (hmem : ⟨.connectUDP inv.host, some sock⟩ ∈ before ++ after) :
    st'.sock = some sock ∧ peer sock (t ++ (before ++ after)) = some inv.host := by
  have hbefore := (List.mem_append.mp hmem).resolve_right (hx.not_connect _ _)
  rw [← List.append_assoc, peer_exchange hx]
  cases ho with
  | kept => exact absurd hbefore List.not_mem_nil
  | replaced r hother =>
      rcases (Obtains.replaced r hother).mem hbefore with ⟨s, hs⟩ | heq
      · cases hs
      · obtain rfl : some sock = r := by simpa using heq
        exact ⟨rfl, by rw [← List.append_assoc, peer_connect, if_pos rfl]⟩

theorem ToItsHost.noneCut {calls : List (Call Sock)} {st : Static Sock}
    (hrun : Run CallStep Static.initial calls st) (hto : ToItsHost calls) : NoneCut calls := by
  rintro as inv h inv' h' bs rfl sock hmem ⟨hlong, hcut⟩
  obtain ⟨st₁, hrun₁, hrest⟩ := hrun.split
  cases hrest with
  | cons hstep hrest =>
      cases hrest with
      | cons hstep' _ =>
          obtain ⟨before, after, rfl, hobtains, hexchange⟩ := callStep_cases hstep
          obtain ⟨before', after', rfl, hobtains', hexchange'⟩ := callStep_cases hstep'
          have hc := (Cached.run hrun₁).step hstep
          obtain ⟨hsock, hpeer⟩ := connected_of_mem hobtains hexchange hmem
          have hmatch := (hc.strnequ_iff hsock hpeer inv'.host).mpr hcut
          cases hobtains' with
          | replaced r hother => exact absurd hmatch (by rw [hother sock hsock]; exact Bool.false_ne_true)
          | kept hsock' _ =>
              obtain ⟨r, rest, rfl⟩ := (hsock ▸ hexchange' : Exchange _ (some sock) _).cons
              obtain ⟨host, hpeer', hhost⟩ := hto.sent (as ++ [(inv, before ++ after)]) inv' _ bs
                (by simp) [] sock inv'.bytes r rest rfl
              rw [talk_snoc, List.append_nil, hpeer] at hpeer'
              obtain rfl := Option.some.inj hpeer'
              have hlen := congrArg List.length (hhost.trans hcut)
              simp only [List.length_take, maxHostName] at hlen hlong
              omega

/-- **Every request goes out on a socket connected to the host it is meant for,
and every socket is closed when it is replaced, exactly as long as no call is
for the first 63 characters of a longer name that the call before it has
connected to.** -/
theorem toItsHost_iff {calls : List (Call Sock)} {st : Static Sock}
    (hrun : Run CallStep Static.initial calls st) : ToItsHost calls ↔ NoneCut calls :=
  ⟨ToItsHost.noneCut hrun, ToItsHost.of_noneCut hrun⟩

end Peer

/-! ### Two calls -/

/-- A request for the status of the connections of a host. -/
def statusCall (host : List Byte) : Invocation where
  req := ⟨0, 0, CharArray.zero _, CharArray.zero _, CharArray.zero _⟩
  user := text "ann"
  stack := fun _ => 0
  reply := ⟨0, 0, CharArray.zero _, CharArray.zero _, fun _ => 0⟩
  connection := none
  cls := none
  host := host
  code := reqStatus

/-- One call connects, and the next one takes the socket over. -/
def twoCalls (host host' : List Byte) : List (Call ℕ) :=
  [(statusCall host, [⟨.connectUDP host, some 3⟩, ⟨.send 3 (statusCall host).bytes, false⟩]),
   (statusCall host', [⟨.send 3 (statusCall host').bytes, false⟩])]

theorem run_twoCalls {host host' : List Byte}
    (h : cstr host' = (cstr host).take (maxHostName - 1)) :
    ∃ st, Run CallStep Static.initial (twoCalls host host') st := by
  have hfirst := callStep_connects (statusCall host) (CharArray.zero _) 3
  have hc : Cached _ _ := cached_initial.step hfirst
  refine ⟨_, .cons hfirst (.cons (callStep_keeps (statusCall host') rfl ?_) (.nil _))⟩
  exact (hc.strnequ_iff rfl rfl host').mpr h

/-- Two requests for the same host. -/
theorem toItsHost_same : ToItsHost (twoCalls (text "argo") (text "argo")) := by
  have hsame : cstr (text "argo") = (cstr (text "argo")).take (maxHostName - 1) := by decide
  obtain ⟨st, hrun⟩ := run_twoCalls hsame
  refine (toItsHost_iff hrun).mpr ?_
  refine noneCut_of_short fun call hcall => ?_
  have hhost : call.1.host = text "argo" := by
    rcases List.mem_pair.mp hcall with rfl | rfl <;> rfl
  rw [hhost]
  decide

/-- After a request for a name of 70 characters, one for its first 63 goes out
on the socket of the longer name. -/
theorem toItsHost_cut : ∃ calls : List (Call ℕ), ∃ st,
    Run CallStep Static.initial calls st ∧ ¬ToItsHost calls := by
  have hcut : cstr (List.replicate 63 97) = (cstr (List.replicate 70 97)).take (maxHostName - 1) :=
    rfl
  obtain ⟨st, hrun⟩ := run_twoCalls hcut
  refine ⟨_, st, hrun, fun hto => ?_⟩
  obtain ⟨host, hpeer, hhost⟩ := hto.sent [_] _ _ [] rfl [] 3 _ false [] rfl
  obtain rfl : List.replicate 70 97 = host := Option.some.inj hpeer
  exact absurd hhost (by decide)

end XinuConsole.ReqGeneric
