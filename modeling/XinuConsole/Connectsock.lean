import XinuConsole.ReqGeneric

/-!
`connectsock` of `lib/netutils.c`, and the calls of `reqGeneric` down to the
system calls. What they do to the descriptors of a process is in `Sockets`.
-/

namespace XinuConsole.Netutils

open Lib ReqGeneric

/-- `SOCK_DGRAM` and `SOCK_STREAM`. -/
inductive SockType
  | dgram
  | stream

/-- The calls of the C library and the system that `connectsock` makes, and those
of `reqGeneric` on a socket. -/
inductive NetOp (Sock Sockaddr : Type)
  | gethostbyname (host : List Byte)
  | inetAddr (host : List Byte)
  | getprotobyname (protocol : List Byte)
  | socket (type : SockType) (proto : ℤ)
  | connect (s : Sock) (addr : Sockaddr) (port : ℤ)
  | close (s : Sock)
  | send (s : Sock) (dgram : List Byte)
  | recv (s : Sock)

/-- The answers; `none` where the call fails. -/
abbrev NetRes {Sock Sockaddr : Type} : NetOp Sock Sockaddr → Type
  | .gethostbyname _ => Option Sockaddr
  | .inetAddr _ => Option Sockaddr
  | .getprotobyname _ => Option ℤ
  | .socket _ _ => Option Sock
  | .connect _ _ _ => Bool
  | .close _ => Unit
  | .send _ _ => Bool
  | .recv _ => Option (List Byte)

abbrev NetProg (Sock Sockaddr : Type) := Prog (NetOp Sock Sockaddr) (@NetRes Sock Sockaddr)

variable {Sock Sockaddr : Type}

/-- The address for the name of a host, which may be in dotted decimal. -/
def hostAddr (host : List Byte) : NetProg Sock Sockaddr (Option Sockaddr) := do
  match ← Prog.perform (NetOp.gethostbyname host) with
  | some addr => pure (some addr)
  | none => Prog.perform (NetOp.inetAddr host)

/-- `connectsock`: the socket, if there is one. -/
def connectsock (host : List Byte) (service : ℤ) (protocol : List Byte) :
    NetProg Sock Sockaddr (Option Sock) := do
  match ← hostAddr host with
  | none => pure none
  | some addr =>
    match ← Prog.perform (NetOp.getprotobyname protocol) with
    | none => pure none
    | some proto =>
      let type := if cstr protocol = text "udp" then SockType.dgram else SockType.stream
      match ← Prog.perform (NetOp.socket type proto) with
      | none => pure none
      | some s =>
        if ← Prog.perform (NetOp.connect s addr service) then pure (some s)
        else do
          let () ← Prog.perform (NetOp.close s)
          pure none

def connectUDP (host : List Byte) (service : ℤ) : NetProg Sock Sockaddr (Option Sock) :=
  connectsock host service (text "udp")

/-- The socket calls of `reqGeneric`, down to the system. -/
def wire (csPort : ℤ) : (op : SockOp Sock) → NetProg Sock Sockaddr (SockRes op)
  | .connectUDP host => connectUDP host csPort
  | .close sock => Prog.perform (NetOp.close sock)
  | .send sock dgram => Prog.perform (NetOp.send sock dgram)
  | .recv sock => Prog.perform (NetOp.recv sock)

end XinuConsole.Netutils
