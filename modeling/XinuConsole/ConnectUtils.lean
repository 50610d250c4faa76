import XinuConsole.Cserver

/-!
`lib/connectUtils.c`: building requests and replies, and the decoder of the
status reply.

A status reply carries its rows as NUL-separated strings with a tail that only
held rows have. `recvfromReply` expands them into the fixed records of
`struct statusreplyData` in the caller's memory. It is modelled with the
pointers and the remaining length it has in the source; whatever the stack
holds before a local structure is filled is an argument.
-/

namespace XinuConsole.ConnectUtils

open Lib

/-! ### The decoder -/

/-- What `sget` moves on: the pointer `from` as an offset into the received
details, the count `dlen` of bytes behind it, and the caller's `details`. -/
structure Cursor where
  ptr : ℕ
  dlen : ℕ
  details : Mem

/-- `sget`: copy a string of at most `max` bytes, terminator included, to the
offset `dst`. -/
def sget (src : Mem) : ℕ → ℕ → Cursor → Bool × Cursor
  | _, 0, c => (false, c)
  | dst, max + 1, c =>
      if 0 < c.dlen then
        let ch := src c.ptr
        let c : Cursor :=
          { ptr := c.ptr + 1, dlen := c.dlen - 1, details := c.details.set dst ch }
        if ch = 0 then (true, c) else sget src (dst + 1) max c
      else (false, c)

/-- One round of the loop of `recvfromReply`, for the record at offset `dst`. -/
def recvRecord (src : Mem) (dst : ℕ) (c : Cursor) : Bool × Cursor :=
  match sget src (dst + offConname) maxConnectionName c with
  | (false, c) => (false, c)
  | (true, c) =>
    match sget src (dst + offConclass) maxClassName c with
    | (false, c) => (false, c)
    | (true, c) =>
      if c.dlen = 0 then (false, c)
      else
        let active := src c.ptr
        let c := { c with ptr := c.ptr + 1, dlen := c.dlen - 1 }
        if active = 0 then
          (true, { c with details :=
            ((c.details.set (dst + offActive) 0).set (dst + offUser) 0).set (dst + offContime) 0 })
        else
          let c := { c with details := c.details.set (dst + offActive) 1 }
          match sget src (dst + offUser) maxUserName c with
          | (false, c) => (false, c)
          | (true, c) => sget src (dst + offContime) maxTimeLength c

/-- The loop of `recvfromReply` over `numc` records, at its counter `i`. The
counter comes back with the result: it is the number of records filled. -/
def recvRecords (src : Mem) : ℕ → ℕ → Cursor → Bool × ℕ × Cursor
  | 0, i, c => (true, i, c)
  | numc + 1, i, c =>
      match recvRecord src (sizeofStatusreplyData * i) c with
      | (false, c) => (false, i, c)
      | (true, c) => recvRecords src numc (i + 1) c

/-- A `struct reply` into which a datagram was received. -/
def replyOfBytes (d : List Byte) (junk : Mem) : Reply :=
  let copy := Mem.ofList d junk
  { version := copy 0
    code := copy 1
    hostname := ⟨copy.read 2 maxHostName, by simp⟩
    numconnections := ⟨copy.read (2 + maxHostName) maxNConnections, by simp⟩
    details := copy.shift (2 + maxHostName + maxNConnections) }

/-- The result of `recvfromReply`: its return value, the caller's reply, and
how many records of `details` it filled. -/
structure Received where
  ret : ℤ
  reply : Reply
  filled : ℕ

/-- The second half of `recvfromReply`: the details of a reply that announces
`numc` records, `dlen` bytes of them, into the caller's reply. -/
def recvDetails (src : Mem) (numc : ℤ) (dlen : ℕ) (reply : Reply) : Received :=
  let numc := if numc > maxNConnections then (maxNConnections : ℤ) else numc
  if numc ≤ 0 then
    let dlen := if dlen = maxDetails then dlen - 1 else dlen
    let text := (src.set dlen 0).read 0 (dlen + 1)
    ⟨sizeofReply, { reply with details := reply.details.write 0 text }, 0⟩
  else
    match recvRecords src numc.toNat 0 ⟨0, dlen, reply.details⟩ with
    | (false, i, c) => ⟨-1, { reply with details := c.details }, i⟩
    | (true, i, c) => ⟨sizeofReply, { reply with details := c.details }, i⟩

/-- `recvfromReply`. `received` is the datagram at the socket, or `none` when
the wait times out or `recvfrom` fails. -/
def recvfromReply (junk : Mem) (received : Option (List Byte)) (reply : Reply) : Received :=
  match received with
  | none => ⟨-1, reply, 0⟩
  | some d =>
    let d := d.take sizeofReply
    let status := d.length
    if status = 0 then ⟨-1, reply, 0⟩
    else if status < sizeofReply - maxDetails then ⟨-1, reply, 0⟩
    else
      let dlen := status - (sizeofReply - maxDetails)
      let replycopy := replyOfBytes d junk
      if replycopy.version ≠ curVersion then ⟨-1, reply, 0⟩
      else
        let replycopy := { replycopy with
          hostname := replycopy.hostname.set (maxHostName - 1) 0
          numconnections := replycopy.numconnections.set (maxNConnections - 1) 0 }
        recvDetails replycopy.details (atoi replycopy.numconnections.val) dlen
          { replycopy with details := reply.details }

/-! ### Building requests and replies -/

/-- `initRequest`, on a request with any content. A null pointer is `none`. -/
def initRequest (req : Request) (user : List Byte) (code : Byte)
    (connection cls : Option (List Byte)) : Request :=
  { version := curVersion
    code := code
    user := (req.user.strncpy user maxUserName).set (maxUserName - 1) 0
    conname := (req.conname.strncpy (connection.getD []) (maxConnectionName - 1)).set
      (maxConnectionName - 1) 0
    conclass := (req.conclass.strncpy (cls.getD []) (maxClassName - 1)).set (maxClassName - 1) 0 }

/-- `initReply`, on a reply with any content. -/
def initReply (reply : Reply) (code : Byte) (host : List Byte) (numc : ℤ) : Reply :=
  { version := curVersion
    code := code
    hostname := (reply.hostname.strncpy host maxHostName).set (maxHostName - 1) 0
    numconnections := (reply.numconnections.store (fmtD numc ++ [0])).set (maxNConnections - 1) 0
    details := reply.details }

section initRequest

variable (req : Request) (user : List Byte) (code : Byte) (connection cls : Option (List Byte))

@[simp] theorem initRequest_code : (initRequest req user code connection cls).code = code := rfl

theorem cstr_initRequest_user :
    cstr (initRequest req user code connection cls).user.val = (cstr user).take 15 :=
  CharArray.cstr_set_strncpy_full req.user user (by decide)

theorem cstr_initRequest_conname :
    cstr (initRequest req user code connection cls).conname.val =
      (cstr (connection.getD [])).take 15 :=
  CharArray.cstr_set_strncpy req.conname (connection.getD []) (by decide)

theorem cstr_initRequest_conclass :
    cstr (initRequest req user code connection cls).conclass.val = (cstr (cls.getD [])).take 15 :=
  CharArray.cstr_set_strncpy req.conclass (cls.getD []) (by decide)

end initRequest

end XinuConsole.ConnectUtils
