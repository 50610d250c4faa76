import XinuConsole.ConnectUtils
import XinuConsole.Lib.Prog

/-!
`reqGeneric` of `lib/connectUtils.c`, as a program over the socket calls.

The socket and the host it is connected to are kept in static variables from
one call to the next. A request carries no number and neither does a reply: a
call takes the first datagram that arrives for its own.
-/

namespace XinuConsole.ReqGeneric

open Lib ConnectUtils

/-- The socket calls. `recv` is `readDelay` and `recvfrom` in one. -/
inductive SockOp (Sock : Type)
  | connectUDP (host : List Byte)
  | close (sock : Sock)
  | send (sock : Sock) (dgram : List Byte)
  | recv (sock : Sock)

/-- The answers: a socket if one was connected; whether the datagram was sent;
the datagram received, if one came in time. -/
abbrev SockRes {Sock : Type} : SockOp Sock → Type
  | .connectUDP _ => Option Sock
  | .close _ => Unit
  | .send _ _ => Bool
  | .recv _ => Option (List Byte)

abbrev SockProg (Sock : Type) := Prog (SockOp Sock) (@SockRes Sock)

abbrev Talk (Sock : Type) := List (Answered (SockOp Sock) (@SockRes Sock))

/-- The static variables `sock`, if it is not negative, and `sockhost`. -/
structure Static (Sock : Type) where
  sock : Option Sock
  sockhost : CharArray maxHostName

variable {Sock : Type}

/-- A new socket for the host. -/
def newSocket (st : Static Sock) (host : List Byte) : SockProg Sock (Static Sock) := do
  let sock ← Prog.perform (SockOp.connectUDP host)
  pure { sock := sock, sockhost := (st.sockhost.strncpy host maxHostName).set (maxHostName - 1) 0 }

/-- The socket that the request goes out on: the cached one if it belongs to
the same host. -/
def socketFor (st : Static Sock) (host : List Byte) : SockProg Sock (Static Sock) :=
  match st.sock with
  | none => newSocket st host
  | some sock =>
    if strnequ st.sockhost.val host maxHostName then pure st
    else do
      let () ← Prog.perform (SockOp.close sock)
      newSocket st host

/-- The end of `reqGeneric`: the reply, if it is one and says that all is well. -/
def accept (stack : Mem) (dgram : Option (List Byte)) (reply : Reply) : Option Reply :=
  let got := recvfromReply stack dgram reply
  if got.ret < 0 then none
  else if got.reply.code ≠ respOk then none
  else some got.reply

/-- `reqGeneric`: the reply it returns 0 with, and the static variables. -/
def reqGeneric (req : Request) (user : List Byte) (stack : Mem) (reply : Reply) (st : Static Sock)
    (connection cls : Option (List Byte)) (host : List Byte) (code : Byte) :
    SockProg Sock (Option Reply × Static Sock) := do
  let st ← socketFor st host
  match st.sock with
  | none => pure (none, st)
  | some sock => do
    if ← Prog.perform (SockOp.send sock (initRequest req user code connection cls).bytes) then do
      let dgram ← Prog.perform (SockOp.recv sock)
      pure (accept stack dgram reply, st)
    else pure (none, st)

/-! ### One request, one wait -/

/-- Nothing was sent or received. -/
def Silent (h : Talk Sock) : Prop :=
  ∀ a ∈ h, (∀ sock dgram, a.op ≠ .send sock dgram) ∧ ∀ sock, a.op ≠ .recv sock

/-- A socket the call may use: the cached one or one it has connected. -/
def Known (st : Static Sock) (h : Talk Sock) (sock : Sock) : Prop :=
  st.sock = some sock ∨ ∃ host, ⟨.connectUDP host, some sock⟩ ∈ h

/-- The order of the socket calls: the request is sent once, and then a reply is
awaited on the same socket. -/
def Orderly (st : Static Sock) (bytes : List Byte) (h : Talk Sock) : SockOp Sock → Prop
  | .send sock dgram => Silent h ∧ Known st h sock ∧ dgram = bytes
  | .recv sock => (∃ h', h = h' ++ [⟨.send sock bytes, true⟩]) ∧ Known st h sock
  | _ => Silent h

/-- How a call ends: with a known socket in the cache, not right after sending,
and with a reply only if that was the datagram awaited. -/
structure Ended (st : Static Sock) (bytes : List Byte) (stack : Mem) (reply : Reply) (h : Talk Sock)
    (r : Option Reply × Static Sock) : Prop where
  cached : ∀ sock, r.2.sock = some sock → Known st h sock
  awaited : ∀ h' sock dgram, h ≠ h' ++ [⟨.send sock dgram, true⟩]
  accepted : ∀ reply', r.1 = some reply' → ∃ h' sock dgram, h = h' ++ [⟨.recv sock, some dgram⟩] ∧
    accept stack (some dgram) reply = some reply'

theorem Silent.snoc {h : Talk Sock} (hs : Silent h) {op : SockOp Sock} (r : SockRes op)
    (hsend : ∀ sock dgram, op ≠ .send sock dgram) (hrecv : ∀ sock, op ≠ .recv sock) :
    Silent (h ++ [⟨op, r⟩]) := by
  intro a ha
  rcases List.mem_append.mp ha with ha | ha
  · exact hs a ha
  · obtain rfl := List.mem_singleton.mp ha
    exact ⟨hsend, hrecv⟩

theorem newSocket_spec (st : Static Sock) (host bytes : List Byte) (st₀ : Static Sock) {h : Talk Sock}
    (hs : Silent h) :
    Prog.wp (Orderly st₀ bytes) (newSocket st host)
      (fun h' st' => Silent h' ∧ ∀ sock, st'.sock = some sock → Known st₀ h' sock) h := by
  simp only [newSocket, Prog.wp_bind, Prog.wp_perform]
  refine ⟨hs, fun r => ⟨hs.snoc r (by simp) (by simp), fun sock hsock => .inr ⟨host, ?_⟩⟩⟩
  obtain rfl : r = some sock := hsock
  exact List.mem_append_right _ (List.mem_singleton.mpr rfl)

theorem socketFor_spec (st : Static Sock) (host bytes : List Byte) {h : Talk Sock} (hs : Silent h) :
    Prog.wp (Orderly st bytes) (socketFor st host)
      (fun h' st' => Silent h' ∧ ∀ sock, st'.sock = some sock → Known st h' sock) h := by
  unfold socketFor
  split
  · exact newSocket_spec st host bytes st hs
  · split
    · exact ⟨hs, fun sock hsock => .inl hsock⟩
    · simp only [Prog.wp_bind, Prog.wp_perform]
      exact ⟨hs, fun r => newSocket_spec st host bytes st (hs.snoc r (by simp) (by simp))⟩

theorem accept_none (stack : Mem) (reply : Reply) : accept stack none reply = none := rfl

theorem reqGeneric_spec (req : Request) (user : List Byte) (stack : Mem) (reply : Reply)
    (st : Static Sock) (connection cls : Option (List Byte)) (host : List Byte) (code : Byte) :
    let bytes := (initRequest req user code connection cls).bytes
    Prog.wp (Orderly st bytes) (reqGeneric req user stack reply st connection cls host code)
      (Ended st bytes stack reply) [] := by
  intro bytes
  rw [reqGeneric, Prog.wp_bind]
  refine Prog.wp_mono ?_ (socketFor_spec st host bytes (by simp [Silent]))
  rintro h st' - ⟨hs, hknown⟩
  have hsilent : ∀ h' sock dgram, h ≠ h' ++ [⟨.send sock dgram, true⟩] := by
    rintro h' sock dgram rfl
    exact (hs ⟨.send sock dgram, true⟩ (by simp)).1 sock dgram rfl
  cases hsock : st'.sock with
  | none => exact ⟨hknown, hsilent, by simp⟩
  | some sock =>
      simp only [Prog.wp_bind, Prog.wp_perform]
      refine ⟨⟨hs, hknown sock hsock, rfl⟩, fun sent => ?_⟩
      have hknown' : ∀ x sock', st'.sock = some sock' → Known st (h ++ x) sock' := by
        intro x sock' hsock'
        rcases hknown sock' hsock' with hc | ⟨host', hmem⟩
        · exact .inl hc
        · exact .inr ⟨host', List.mem_append_left _ hmem⟩
      cases sent with
      | false =>
          refine ⟨hknown' _, fun h' sock' dgram he => ?_, by simp⟩
          obtain ⟨-, hlast⟩ := List.append_inj' he rfl
          simp at hlast
      | true =>
          simp only [if_true, Prog.wp_bind, Prog.wp_perform]
          refine ⟨⟨⟨h, rfl⟩, hknown' _ sock hsock⟩,
            fun dgram => ⟨?_, fun h' sock' d he => ?_, fun reply' hr => ?_⟩⟩
          · rw [List.append_assoc]
            exact hknown' _
          · obtain ⟨-, hlast⟩ := List.append_inj' he rfl
            simp at hlast
          · cases dgram with
            | none => exact absurd (hr.symm.trans (accept_none stack reply)) (by simp)
            | some d => exact ⟨_, sock, d, rfl, hr⟩

end XinuConsole.ReqGeneric
