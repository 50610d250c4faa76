import XinuConsole.ConnectUtils
import XinuConsole.Lib.Prog

/-!
`lib/makeConnection.c`: how a client looks for a connection and asks for it.

The functions are programs over the calls they make: the two request functions
of the library, `connectTCP`, `rand` and `usleep`. A call that C leaves
undefined (a division by zero, a copy past the end of a buffer, a use of an
uninitialised variable) is the call `undefined`, which has no answer. The
caller's buffers go in and come back with the result; a null pointer is `none`.
What is printed on the standard error is left out.
-/

namespace XinuConsole.MakeConnection

open Lib ConnectUtils

inductive Op
  | obtainStatus (connection cls host : Option (List Byte))
  | reqGeneric (connection cls host : List Byte) (code : Byte)
  | connectTCP (host : List Byte) (port : ℤ)
  | rand
  | usleep (usec : ℕ)
  | undefined
  deriving DecidableEq

/-- What a call answers: the replies that arrived; the reply, if the request
was granted; a descriptor or a negative number; a random number. -/
abbrev Res : Op → Type
  | .obtainStatus .. => List Reply
  | .reqGeneric .. => Option Reply
  | .connectTCP .. => ℤ
  | .rand => ℕ
  | .usleep _ => Unit
  | .undefined => Empty

abbrev Client := Prog Op Res

abbrev History := List (Answered Op Res)

def obtainStatus (connection cls host : Option (List Byte)) : Client (List Reply) :=
  Prog.perform (Op.obtainStatus connection cls host)

def reqGeneric (connection cls host : List Byte) (code : Byte) : Client (Option Reply) :=
  Prog.perform (Op.reqGeneric connection cls host code)

def connectTCP (host : List Byte) (port : ℤ) : Client ℤ := Prog.perform (Op.connectTCP host port)

def rand : Client ℕ := Prog.perform Op.rand

def usleep (usec : ℕ) : Client Unit := Prog.perform (Op.usleep usec)

def undefined {α : Type} : Client α := .call Op.undefined Empty.elim

/-! ### Copies into the caller's buffers -/

/-- `if( dst != NULL ) strcpy( dst, src )`. -/
def copyOut {n : ℕ} (dst : Option (CharArray n)) (src : List Byte) : Client (Option (CharArray n)) :=
  match dst with
  | none => pure none
  | some a => if (cstr src).length < n then pure (some (a.store (cstr src ++ [0]))) else undefined

/-- `p != NULL && *p != '\0'`. -/
def nonempty {n : ℕ} : Option (CharArray n) → Bool
  | none => false
  | some a => a.val.headD 0 ≠ 0

/-- The values of C's `int`. -/
def IsInt (n : ℤ) : Prop := -2 ^ 31 ≤ n ∧ n < 2 ^ 31

instance : DecidablePred IsInt := fun n => inferInstanceAs (Decidable (-2 ^ 31 ≤ n ∧ n < 2 ^ 31))

/-- `sscanf( time, "%d:%d:%d", .. )`, if it sets `hours` and `minutes`. A number
that its variable does not hold, the third one included, is undefined. -/
def scanTime (time : List Byte) : Option (ℤ × ℤ) :=
  match scanInt time with
  | none => none
  | some (hours, rest) =>
    if rest.headD 0 ≠ 58 then none
    else
      match scanInt rest.tail with
      | none => none
      | some (minutes, rest) =>
        let seconds := if rest.headD 0 = 58 then atoi rest.tail else 0
        if IsInt hours ∧ IsInt minutes ∧ IsInt seconds then some (hours, minutes) else none

/-- `getMinutes`, if `sscanf` sets both variables the result depends on and the
arithmetic does not overflow. -/
def getMinutes (time : List Byte) : Option ℤ :=
  match scanTime time with
  | none => none
  | some (hours, minutes) =>
    if hours > 0 then
      if IsInt (hours * 60) ∧ IsInt (minutes + hours * 60) then some (minutes + hours * 60) else none
    else some minutes

/-! ### Asking for a row -/

/-- The block of `reqTCPConnection` that takes a held row from its user: the
result tells whether the call goes on. -/
def breakRow (host : List Byte) (stat : StatusreplyData) : Client Bool :=
  match getMinutes stat.contime with
  | none => undefined
  | some minutes =>
    if minutes < reserveTime then pure false
    else do
      match ← reqGeneric stat.conname stat.conclass host reqBreakConnection with
      | none => pure false
      | some _ => do
        usleep 500
        pure true

/-- The end of `reqTCPConnection`: make the connection and dial its port. -/
def makeRow (connection : Option (CharArray maxConnectionName))
    (cls : Option (CharArray maxClassName)) (host : List Byte) (stat : StatusreplyData) :
    Client (ℤ × Option (CharArray maxConnectionName) × Option (CharArray maxClassName)) := do
  match ← reqGeneric stat.conname stat.conclass host reqMakeConnection with
  | none => pure (-1, connection, cls)
  | some reply => do
    let connection ← copyOut connection stat.conname
    let cls ← copyOut cls stat.conclass
    let fd ← connectTCP host (atoi (reply.details.read 0 maxDetails))
    pure (fd, connection, cls)

/-- `reqTCPConnection`: the descriptor and the two buffers. -/
def reqTCPConnection (connection : Option (CharArray maxConnectionName))
    (cls : Option (CharArray maxClassName)) (host : List Byte) (steal : Bool)
    (stat : StatusreplyData) :
    Client (ℤ × Option (CharArray maxConnectionName) × Option (CharArray maxClassName)) :=
  if steal = false ∧ stat.active ≠ 0 ∨ steal = true ∧ stat.active = 0 then
    pure (-1, connection, cls)
  else if steal = true then do
    if ← breakRow host stat then makeRow connection cls host stat else pure (-1, connection, cls)
  else makeRow connection cls host stat

/-! ### Going through the replies -/

/-- The caller's three buffers. -/
structure Buffers where
  connection : Option (CharArray maxConnectionName)
  cls : Option (CharArray maxClassName)
  host : Option (CharArray maxHostName)
  deriving DecidableEq

/-- Whether `getTCPConnection` stores the index of a row. -/
def candidate (steal : Bool) (stat : StatusreplyData) : Client Bool :=
  if steal = true ∧ stat.active ≠ 0 then
    match getMinutes stat.contime with
    | none => undefined
    | some minutes => pure (minutes ≥ reserveTime)
  else pure (stat.active = 0)

/-- The array `indeces` of a reply, from the row `j` on with `k` rows to go. -/
def indeces (steal : Bool) (reply : Reply) : ℕ → ℕ → Client (List ℕ)
  | 0, _ => pure []
  | k + 1, j =>
      -- the row lies behind the details of the reply
      if maxConnections ≤ j then undefined
      else do
        let found ← candidate steal (reply.stat j)
        let rest ← indeces steal reply k (j + 1)
        pure (if found then j :: rest else rest)

/-- The loop over the candidates of a reply, with `k` rounds to go. -/
def tryRows (steal : Bool) (reply : Reply) (free : List ℕ) : ℕ → ℕ → Buffers → Client (ℤ × Buffers)
  | 0, _, b => pure (-1, b)
  | k + 1, randgrab, b => do
      let host := cstr reply.hostname.val
      let (fd, connection, cls) ←
        reqTCPConnection b.connection b.cls host steal (reply.stat (free.getD randgrab 0))
      if 0 ≤ fd then do
        let host ← copyOut b.host host
        pure (fd, ⟨connection, cls, host⟩)
      else tryRows steal reply free k ((randgrab + 1) % free.length) ⟨connection, cls, b.host⟩

/-- `getTCPConnection`. -/
def getTCPConnection (steal : Bool) : List Reply → Buffers → Client (ℤ × Buffers)
  | [], b => pure (-1, b)
  | reply :: replies, b => do
      let free ← indeces steal reply (atoi reply.numconnections.val).toNat 0
      let random ← rand
      -- `rand() % 0`
      if free = [] then undefined
      else do
        let (fd, b) ← tryRows steal reply free free.length (random % free.length) b
        if 0 ≤ fd then pure (fd, b) else getTCPConnection steal replies b

/-! ### The class to look for -/

/-- `getdfltClass`; `envClass` is the environment variable. -/
def getdfltClass (envClass : Option (List Byte)) (cls : Option (CharArray maxClassName))
    (connection : Option (CharArray maxConnectionName)) : List Byte :=
  match cls with
  | some a => if a.val.headD 0 ≠ 0 then a.val else unnamed
  | none => unnamed
where
  unnamed : List Byte :=
    if nonempty connection then []
    else
      match envClass with
      | some sb => if sb.headD 0 = 0 then defaultClassName else sb
      | none => defaultClassName

/-- `getdfltSecClass`. -/
def getdfltSecClass : List Byte := defaultSecClassName

def totalAnswers (replies : List Reply) : ℤ :=
  (replies.map fun reply => atoi reply.numconnections.val).sum

/-! ### The second serial port -/

/-- The variables of `findSecond` that live over its loops. -/
structure Second where
  secname : Option (CharArray maxConnectionName)
  listnum : ℤ
  replies2 : ℕ → Option Reply

/-- The name of the second port: the name of length `nmlen` with a `2` behind it. -/
def secondName (secname : CharArray maxConnectionName) (conname : List Byte) (nmlen : ℕ) :
    CharArray maxConnectionName :=
  ((secname.strncpy conname maxConnectionName).set nmlen 50).set (nmlen + 1) 0

/-- The loop of `findSecond` over the answers for the second port, with `q`
rounds to go. Each round looks at the first row of `replies2[ i ]`. -/
def secondTaken (replies2 : ℕ → Option Reply) (i : ℕ) : ℕ → Bool → Client Bool
  | 0, taken => pure taken
  | q + 1, taken =>
      if taken then pure true
      else
        match replies2 i with
        | none => undefined
        | some reply2 =>
          secondTaken replies2 i q
            (0 < atoi reply2.numconnections.val ∧ (reply2.stat 0).active = 1)

/-- The loop of `findSecond` over the rows of the reply number `i`, from the
row `j` on with `k` rows to go. -/
def findInReply (user : List Byte) (i : ℕ) (reply : Reply) : ℕ → ℕ → Second → Client Second
  | 0, _, s => pure s
  | k + 1, j, s =>
      if maxConnections ≤ j then undefined
      else if strnequ (reply.stat j).user user maxUserName then
        let nmlen := ((cstr (reply.stat j).conname).take maxConnectionName).length
        if maxConnectionName - 2 ≤ nmlen then pure { s with listnum := -1 }
        else
          match s.secname with
          | none => undefined
          | some a => do
            let secname := secondName a (reply.stat j).conname nmlen
            let answers ← obtainStatus (some secname.val) (some getdfltSecClass) none
            -- entries behind the new answers keep what they had
            let replies2 := fun q => (answers[q]?).or (s.replies2 q)
            let s := { s with secname := some secname, replies2 := replies2 }
            if ← secondTaken replies2 i answers.length false then findInReply user i reply k (j + 1) s
            else pure { s with listnum := j }
      else findInReply user i reply k (j + 1) s

/-- The loop of `findSecond` over the replies, from the number `i` on. -/
def findSecondFrom (user : List Byte) : ℕ → List Reply → Second → Client Second
  | _, [], s => pure s
  | i, reply :: replies, s => do
      let s ← findInReply user i reply (atoi reply.numconnections.val).toNat 0 s
      findSecondFrom user (i + 1) replies s

/-- `findSecond`. -/
def findSecond (user : List Byte) (replies : List Reply)
    (secname : Option (CharArray maxConnectionName)) : Client Second :=
  findSecondFrom user 0 replies ⟨secname, -1, fun _ => none⟩

/-! ### Making the connection -/

/-- The class buffers of `makeConnection`: the caller's, the local `dclass`,
and whether `class` points at the local one. -/
structure Classes where
  caller : Option (CharArray maxClassName)
  dclass : CharArray maxClassName
  atLocal : Bool

/-- The buffer that `class` points at. -/
def Classes.pointee (k : Classes) : Option (CharArray maxClassName) :=
  if k.atLocal then some k.dclass else k.caller

/-- What the caller's buffer holds once `class`' buffer holds `a`. -/
def Classes.callerAfter (k : Classes) (a : Option (CharArray maxClassName)) :
    Option (CharArray maxClassName) :=
  if k.atLocal then k.caller else a

/-- The default class in the caller's buffer, or in `dclass` without one. -/
def defaultClass (envClass : Option (List Byte)) (stack : CharArray maxClassName) (b : Buffers) :
    Classes :=
  let dflt := getdfltClass envClass b.cls b.connection
  match b.cls with
  | none => ⟨none, (stack.strncpy dflt (maxClassName - 1)).set (maxClassName - 1) 0, true⟩
  | some a => ⟨some ((a.strncpy dflt maxClassName).set (maxClassName - 1) 0), stack, false⟩

/-- The block `if( 1 == getserial2 )`. `class` is set to `dclass` at its start
and stays there. -/
def secondSerial (envClass : Option (List Byte)) (user : List Byte) (k : Classes) (b : Buffers) :
    Client (Classes × Option (CharArray maxConnectionName)) := do
  let dclass := k.dclass.strncpy (getdfltClass envClass none none) maxClassName
  let replies ← obtainStatus none (some dclass.val) (b.host.map Subtype.val)
  let s ← findSecond user replies b.connection
  let dclass :=
    if s.listnum ≠ -1 then (dclass.set 0 0).strncpy getdfltSecClass maxClassName
    else dclass.strncpy (getdfltClass envClass none none) maxClassName
  pure ({ k with dclass := dclass, atLocal := true }, s.secname)

/-- The end of `makeConnection`: ask all servers, then try free rows and then
rows whose reservation has run out. -/
def acquire (b : Buffers) : Client (ℤ × Buffers) := do
  let replies ← obtainStatus (b.connection.map Subtype.val) (b.cls.map Subtype.val)
    (b.host.map Subtype.val)
  if totalAnswers replies ≤ 0 then pure (-1, b)
  else do
    let (fd, b) ← getTCPConnection false replies b
    if 0 ≤ fd then pure (fd, b)
    else getTCPConnection true replies b

/-- The same with `class` as `k` has it, back in the caller's buffers. -/
def acquireFor (k : Classes) (connection : Option (CharArray maxConnectionName))
    (host : Option (CharArray maxHostName)) : Client (ℤ × Buffers) := do
  let (fd, b) ← acquire ⟨connection, k.pointee, host⟩
  pure (fd, { b with cls := k.callerAfter b.cls })

/-- `makeConnection`. `stack` is what `dclass` holds before it is set. -/
def makeConnection (envClass : Option (List Byte)) (user : List Byte) (stack : CharArray maxClassName)
    (b : Buffers) (getserial2 : ℤ) : Client (ℤ × Buffers) :=
  match b with
  | ⟨some connection, some cls, some host⟩ =>
    if nonempty (some host) ∧ nonempty (some connection) ∧ nonempty (some cls) then do
      match ← reqGeneric connection.val cls.val host.val reqMakeConnection with
      | none => pure (-1, b)
      | some reply => do
        let fd ← connectTCP host.val (atoi (reply.details.read 0 maxDetails))
        pure (fd, b)
    else search
  | _ => search
where
  search : Client (ℤ × Buffers) :=
    let k := defaultClass envClass stack b
    if getserial2 = 1 then do
      let (k, connection) ← secondSerial envClass user k b
      acquireFor k connection b.host
    else acquireFor k b.connection b.host

/-! ### The calls and their rules -/

section rules

variable {pre : History → Op → Prop} {h : History}

@[simp] theorem wp_obtainStatus (connection cls host : Option (List Byte))
    (post : History → List Reply → Prop) :
    Prog.wp pre (obtainStatus connection cls host) post h ↔
      pre h (.obtainStatus connection cls host) ∧
        ∀ r : List Reply, post (h ++ [⟨.obtainStatus connection cls host, r⟩]) r := Iff.rfl

@[simp] theorem wp_reqGeneric (connection cls host : List Byte) (code : Byte)
    (post : History → Option Reply → Prop) :
    Prog.wp pre (reqGeneric connection cls host code) post h ↔
      pre h (.reqGeneric connection cls host code) ∧
        ∀ r : Option Reply, post (h ++ [⟨.reqGeneric connection cls host code, r⟩]) r := Iff.rfl

@[simp] theorem wp_connectTCP (host : List Byte) (port : ℤ) (post : History → ℤ → Prop) :
    Prog.wp pre (connectTCP host port) post h ↔
      pre h (.connectTCP host port) ∧ ∀ r : ℤ, post (h ++ [⟨.connectTCP host port, r⟩]) r := Iff.rfl

@[simp] theorem wp_rand (post : History → ℕ → Prop) :
    Prog.wp pre rand post h ↔ pre h .rand ∧ ∀ r : ℕ, post (h ++ [⟨.rand, r⟩]) r := Iff.rfl

@[simp] theorem wp_usleep (usec : ℕ) (post : History → Unit → Prop) :
    Prog.wp pre (usleep usec) post h ↔
      pre h (.usleep usec) ∧ ∀ r : Unit, post (h ++ [⟨.usleep usec, r⟩]) r := Iff.rfl

@[simp] theorem wp_undefined {α : Type} (post : History → α → Prop) :
    Prog.wp pre undefined post h ↔ pre h .undefined :=
  ⟨fun hp => hp.1, fun hp => ⟨hp, fun r => r.elim⟩⟩

end rules

theorem runs_call {α : Type} (op : Op) (r : Res op) {f : Res op → Client α} {h : History} {a : α}
    (hf : Prog.Runs (f r) h a) :
    Prog.Runs ((Prog.perform op : Client (Res op)) >>= f) (⟨op, r⟩ :: h) a := .call r hf

/-! ### What a client sends and what it hands back -/

/-- `reply` is one of the status replies the client has got. -/
def Got (h : History) (reply : Reply) : Prop :=
  ∃ connection cls host, ∃ replies : List Reply,
    ⟨.obtainStatus connection cls host, replies⟩ ∈ h ∧ reply ∈ replies

/-- `stat` is one of the rows that a status reply of `host` announces. -/
def Listed (h : History) (host : List Byte) (stat : StatusreplyData) : Prop :=
  ∃ reply, Got h reply ∧ host = cstr reply.hostname.val ∧
    ∃ j : ℕ, (j : ℤ) < atoi reply.numconnections.val ∧ stat = reply.stat j

/-- A row is broken only if a status reply lists it as held, and that for
`RESERVETIME` minutes. -/
def Licensed (h : History) (op : Op) : Prop :=
  ∀ conname conclass host, op = .reqGeneric conname conclass host reqBreakConnection →
    ∃ stat, Listed h host stat ∧ conname = stat.conname ∧ conclass = stat.conclass ∧
      stat.active ≠ 0 ∧ ∃ minutes, getMinutes stat.contime = some minutes ∧ reserveTime ≤ minutes

/-- The client ends with a granted make request and a call of its port. -/
def Obtained (h : History) (fd : ℤ) (conname conclass host : List Byte) : Prop :=
  ∃ h' reply, h = h' ++ [⟨.reqGeneric conname conclass host reqMakeConnection, some reply⟩,
    ⟨.connectTCP host (atoi (reply.details.read 0 maxDetails)), fd⟩]

theorem Obtained.ops {h : History} {fd : ℤ} {conname conclass host : List Byte}
    (ho : Obtained h fd conname conclass host) : (h.map Answered.op).dropLast.getLast? =
      some (.reqGeneric conname conclass host reqMakeConnection) := by
  obtain ⟨h', reply, rfl⟩ := ho
  simp [List.dropLast_append_of_ne_nil]

/-- A buffer, if there is one, holds the string `s` and its terminator. -/
def Holds {n : ℕ} (b : Option (CharArray n)) (s : List Byte) : Prop :=
  ∀ a ∈ b, (0 : Byte) ∈ a.val ∧ cstr a.val = s

theorem Holds.take {n : ℕ} {b : Option (CharArray (n + 1))} {s : List Byte} (hb : Holds b (cstr s))
    (hnull : b.isSome = true) : ∃ a, b = some a ∧ cstr a.val = cstr s ∧ (cstr s).take n = cstr s := by
  obtain ⟨a, rfl⟩ := Option.isSome_iff_exists.mp hnull
  obtain ⟨hend, hstr⟩ := hb a rfl
  have hlt := cstr_length_lt_of_mem hend
  rw [a.property, hstr] at hlt
  exact ⟨a, rfl, hstr, List.take_of_length_le (by omega)⟩

/-- The same pointers are null. -/
structure Buffers.SameNull (b b' : Buffers) : Prop where
  connection : b'.connection.isSome = b.connection.isSome
  cls : b'.cls.isSome = b.cls.isSome
  host : b'.host.isSome = b.host.isSome

theorem Buffers.SameNull.refl (b : Buffers) : b.SameNull b := ⟨rfl, rfl, rfl⟩

theorem Buffers.SameNull.trans {b b' b'' : Buffers} (h : b.SameNull b') (h' : b'.SameNull b'') :
    b.SameNull b'' :=
  ⟨h'.connection.trans h.connection, h'.cls.trans h.cls, h'.host.trans h.host⟩

/-- A descriptor comes with the names of the granted request. -/
def Acquired (h : History) (fd : ℤ) (b : Buffers) : Prop :=
  0 ≤ fd → ∃ conname conclass host, Obtained h fd conname conclass host ∧
    Holds b.connection (cstr conname) ∧ Holds b.cls (cstr conclass) ∧ Holds b.host (cstr host)

theorem Got.mono {h h' : History} {reply : Reply} (hg : Got h reply) (hh : h <+: h') :
    Got h' reply := by
  obtain ⟨connection, cls, host, replies, hmem, hreply⟩ := hg
  exact ⟨connection, cls, host, replies, hh.subset hmem, hreply⟩

theorem licensed_of_ne {h : History} {op : Op}
    (hop : ∀ conname conclass host, op ≠ .reqGeneric conname conclass host reqBreakConnection) :
    Licensed h op := fun _ _ _ he => absurd he (hop _ _ _)

@[simp] theorem licensed_obtainStatus (h : History) (connection cls host : Option (List Byte)) :
    Licensed h (.obtainStatus connection cls host) := licensed_of_ne (by simp)

@[simp] theorem licensed_make (h : History) (conname conclass host : List Byte) :
    Licensed h (.reqGeneric conname conclass host 9) := licensed_of_ne (by simp)

@[simp] theorem licensed_connectTCP (h : History) (host : List Byte) (port : ℤ) :
    Licensed h (.connectTCP host port) := licensed_of_ne (by simp)

@[simp] theorem licensed_rand (h : History) : Licensed h .rand := licensed_of_ne (by simp)

@[simp] theorem licensed_usleep (h : History) (usec : ℕ) : Licensed h (.usleep usec) :=
  licensed_of_ne (by simp)

@[simp] theorem licensed_undefined (h : History) : Licensed h .undefined :=
  licensed_of_ne (by simp)

theorem copyOut_spec {n : ℕ} {dst : Option (CharArray n)} {src : List Byte}
    {pre : History → Op → Prop} {post : History → Option (CharArray n) → Prop} {h : History}
    (hpre : pre h .undefined)
    (hpost : ∀ b : Option (CharArray n), b.isSome = dst.isSome → Holds b (cstr src) → post h b) :
    Prog.wp pre (copyOut dst src) post h := by
  cases dst with
  | none => exact hpost none rfl (by simp [Holds])
  | some a =>
      simp only [copyOut]
      split
      · next hfit =>
          refine hpost _ rfl fun a' ha' => ?_
          obtain rfl := Option.some.inj ha'
          have hstore : (a.store (cstr src ++ [0])).val =
              cstr src ++ 0 :: a.val.drop (cstr src ++ [0]).length := by
            simp only [CharArray.store]
            rw [List.take_of_length_le (by simp; omega)]
            simp
          rw [hstore]
          exact ⟨by simp, cstr_append_zero (zero_not_mem_cstr _) _⟩
      · simpa using hpre

theorem breakRow_spec {host : List Byte} {stat : StatusreplyData} {h : History}
    (hl : Listed h host stat) (hactive : stat.active ≠ 0) :
    Prog.wp Licensed (breakRow host stat) (fun _ _ => True) h := by
  unfold breakRow
  cases hm : getMinutes stat.contime with
  | none => simp
  | some minutes =>
      dsimp only
      split
      · simp
      · next hlong =>
          simp only [Prog.wp_bind, wp_reqGeneric]
          refine ⟨?_, fun r => ?_⟩
          · intro conname conclass host' hop
            obtain ⟨rfl, rfl, rfl, -⟩ := Op.reqGeneric.inj hop
            exact ⟨stat, hl, rfl, rfl, hactive, minutes, hm, by omega⟩
          · cases r <;> simp

/-- What `makeRow` and `reqTCPConnection` leave behind. -/
def RowMade (connection : Option (CharArray maxConnectionName)) (cls : Option (CharArray maxClassName))
    (host : List Byte) (h : History)
    (r : ℤ × Option (CharArray maxConnectionName) × Option (CharArray maxClassName)) : Prop :=
  (r.2.1.isSome = connection.isSome ∧ r.2.2.isSome = cls.isSome) ∧
    (0 ≤ r.1 → ∃ conname conclass, Obtained h r.1 conname conclass host ∧
      Holds r.2.1 (cstr conname) ∧ Holds r.2.2 (cstr conclass))

theorem makeRow_spec (connection : Option (CharArray maxConnectionName))
    (cls : Option (CharArray maxClassName)) (host : List Byte) (stat : StatusreplyData)
    (h : History) :
    Prog.wp Licensed (makeRow connection cls host stat) (RowMade connection cls host) h := by
  simp only [makeRow, Prog.wp_bind, wp_reqGeneric]
  refine ⟨licensed_make _ _ _ _, fun r => ?_⟩
  cases r with
  | none => exact ⟨⟨rfl, rfl⟩, fun hfd => absurd hfd (by simp)⟩
  | some reply =>
      simp only [Prog.wp_bind]
      apply copyOut_spec (licensed_undefined _)
      intro connection' hnull hconn
      apply copyOut_spec (licensed_undefined _)
      intro cls' hnull' hcls
      simp only [wp_connectTCP, licensed_connectTCP, true_and]
      intro fd
      refine ⟨⟨hnull, hnull'⟩, fun _ => ⟨stat.conname, stat.conclass, ⟨h, reply, ?_⟩, hconn, hcls⟩⟩
      simp

theorem reqTCPConnection_spec (connection : Option (CharArray maxConnectionName))
    (cls : Option (CharArray maxClassName)) {host : List Byte} (steal : Bool)
    {stat : StatusreplyData} {h : History} (hl : Listed h host stat) :
    Prog.wp Licensed (reqTCPConnection connection cls host steal stat)
      (RowMade connection cls host) h := by
  have hrefused : ∀ h, RowMade connection cls host h (-1, connection, cls) :=
    fun _ => ⟨⟨rfl, rfl⟩, fun hfd => absurd hfd (by simp)⟩
  unfold reqTCPConnection
  split
  · exact hrefused h
  · next htest =>
      split
      · next hsteal =>
          rw [Prog.wp_bind]
          have hactive : stat.active ≠ 0 := fun h0 => htest (.inr ⟨hsteal, h0⟩)
          refine Prog.wp_mono (fun h' go _ _ => ?_) (breakRow_spec hl hactive)
          split
          · exact makeRow_spec ..
          · exact hrefused h'
      · exact makeRow_spec ..

theorem indeces_spec {pre : History → Op → Prop} (hpre : ∀ h, pre h .undefined) (steal : Bool)
    (reply : Reply) (k j : ℕ) (h : History) :
    Prog.wp pre (indeces steal reply k j) (fun _ free => ∀ x ∈ free, x < j + k) h := by
  induction k generalizing j h with
  | zero => simp [indeces]
  | succ k ih =>
      have hcand : ∀ h, Prog.wp pre (candidate steal (reply.stat j)) (fun _ _ => True) h := by
        intro h
        unfold candidate
        split
        · split <;> simp [hpre]
        · simp
      simp only [indeces]
      split
      · simp [hpre]
      · rw [Prog.wp_bind]
        refine Prog.wp_mono (fun h' found _ _ => ?_) (hcand h)
        rw [Prog.wp_bind]
        refine Prog.wp_mono (fun _ rest _ hrest => ?_) (ih (j + 1) h')
        intro x hx
        have hx' : x = j ∨ x ∈ rest := by
          cases found
          · exact .inr hx
          · simpa using hx
        rcases hx' with rfl | hx'
        · omega
        · have := hrest x hx'
          omega

/-- A pass over one reply or several. -/
def Passed (b : Buffers) (h : History) (r : ℤ × Buffers) : Prop :=
  b.SameNull r.2 ∧ Acquired h r.1 r.2

theorem passed_refused (b : Buffers) (h : History) : Passed b h (-1, b) :=
  ⟨.refl b, fun hfd => absurd hfd (by simp)⟩

theorem tryRows_spec (steal : Bool) {reply : Reply} {free : List ℕ}
    (hfree : ∀ j ∈ free, (j : ℤ) < atoi reply.numconnections.val) (k : ℕ) {randgrab : ℕ}
    (hgrab : randgrab < free.length) (b : Buffers) {h : History} (hg : Got h reply) :
    Prog.wp Licensed (tryRows steal reply free k randgrab b) (Passed b) h := by
  induction k generalizing randgrab b h with
  | zero => exact passed_refused b h
  | succ k ih =>
      -- the remainder keeps `randgrab` below the number of candidates
      have hj : (free.getD randgrab 0) ∈ free := by
        rw [List.getD_eq_getElem _ _ hgrab]
        exact List.getElem_mem hgrab
      have hl : Listed h (cstr reply.hostname.val) (reply.stat (free.getD randgrab 0)) :=
        ⟨reply, hg, rfl, _, hfree _ hj, rfl⟩
      rw [tryRows, Prog.wp_bind]
      refine Prog.wp_mono ?_ (reqTCPConnection_spec b.connection b.cls steal hl)
      rintro h' ⟨fd, connection, cls⟩ hh ⟨⟨hconn, hcls⟩, hmade⟩
      dsimp only at hconn hcls hmade ⊢
      split
      · next hfd =>
          obtain ⟨conname, conclass, hgranted, hn, hc⟩ := hmade hfd
          rw [Prog.wp_bind]
          apply copyOut_spec (licensed_undefined _)
          intro host hnull hhost
          exact ⟨⟨hconn, hcls, hnull⟩, fun _ => ⟨conname, conclass, _, hgranted, hn, hc, hhost⟩⟩
      · refine Prog.wp_mono (fun h'' r _ hr => ?_)
          (ih (Nat.mod_lt _ (by omega)) ⟨connection, cls, b.host⟩ (hg.mono hh))
        have hnull : b.SameNull ⟨connection, cls, b.host⟩ := ⟨hconn, hcls, rfl⟩
        exact ⟨hnull.trans hr.1, hr.2⟩

theorem getTCPConnection_spec (steal : Bool) (replies : List Reply) (b : Buffers) {h : History}
    (hg : ∀ reply ∈ replies, Got h reply) :
    Prog.wp Licensed (getTCPConnection steal replies b) (Passed b) h := by
  induction replies generalizing b h with
  | nil => exact passed_refused b h
  | cons reply replies ih =>
      rw [getTCPConnection, Prog.wp_bind]
      refine Prog.wp_mono (fun h₁ free hh₁ hbound => ?_)
        (indeces_spec licensed_undefined steal reply (atoi reply.numconnections.val).toNat 0 h)
      simp only [Prog.wp_bind, wp_rand, licensed_rand, true_and]
      intro random
      have hh₂ : h <+: h₁ ++ [⟨.rand, random⟩] := hh₁.trans (List.prefix_append _ _)
      split
      · simp
      · next hne =>
          have hfree : ∀ j ∈ free, (j : ℤ) < atoi reply.numconnections.val := by
            intro j hj
            have := hbound j hj
            omega
          rw [Prog.wp_bind]
          refine Prog.wp_mono ?_ (tryRows_spec steal hfree free.length
            (Nat.mod_lt random (List.length_pos_of_ne_nil hne)) b
            ((hg reply List.mem_cons_self).mono hh₂))
          rintro h₃ ⟨fd, b'⟩ hh₃ ⟨hnull, hacq⟩
          dsimp only at hnull hacq ⊢
          split
          · exact ⟨hnull, hacq⟩
          · refine Prog.wp_mono (fun h₄ r _ hr => ⟨hnull.trans hr.1, hr.2⟩) (ih b' fun r hr => ?_)
            exact (hg r (List.mem_cons_of_mem _ hr)).mono (hh₂.trans hh₃)

theorem secondTaken_spec (replies2 : ℕ → Option Reply) (i q : ℕ) (taken : Bool) (h : History) :
    Prog.wp Licensed (secondTaken replies2 i q taken) (fun _ _ => True) h := by
  induction q generalizing taken with
  | zero => trivial
  | succ q ih =>
      unfold secondTaken
      split
      · trivial
      · cases replies2 i with
        | none => simp
        | some reply2 => exact ih _

theorem findInReply_spec (user : List Byte) (i : ℕ) (reply : Reply) (k j : ℕ) (s : Second)
    (h : History) :
    Prog.wp Licensed (findInReply user i reply k j s)
      (fun _ r => r.secname.isSome = s.secname.isSome) h := by
  induction k generalizing j s h with
  | zero => rfl
  | succ k ih =>
      unfold findInReply
      split
      · simp
      · split
        · dsimp only
          split
          · rfl
          · cases hs : s.secname with
            | none => simp
            | some a =>
                simp only [Prog.wp_bind, wp_obtainStatus, licensed_obtainStatus, true_and]
                intro answers
                refine Prog.wp_mono (fun h' taken _ _ => ?_) (secondTaken_spec _ i _ _ _)
                split
                · exact ih _ _ _
                · rfl
        · exact ih _ _ _

theorem findSecondFrom_spec (user : List Byte) (i : ℕ) (replies : List Reply) (s : Second)
    (h : History) :
    Prog.wp Licensed (findSecondFrom user i replies s)
      (fun _ r => r.secname.isSome = s.secname.isSome) h := by
  induction replies generalizing i s h with
  | nil => rfl
  | cons reply replies ih =>
      rw [findSecondFrom, Prog.wp_bind]
      refine Prog.wp_mono (fun h' s' _ hs' => ?_) (findInReply_spec user i reply _ 0 s h)
      exact Prog.wp_mono (fun _ r _ hr => hr.trans hs') (ih (i + 1) s' h')

theorem secondSerial_spec (envClass : Option (List Byte)) (user : List Byte) (k : Classes)
    (b : Buffers) (h : History) :
    Prog.wp Licensed (secondSerial envClass user k b)
      (fun _ r => r.1.caller = k.caller ∧ r.1.atLocal = true ∧
        r.2.isSome = b.connection.isSome) h := by
  simp only [secondSerial, Prog.wp_bind, wp_obtainStatus, licensed_obtainStatus, true_and]
  intro replies
  refine Prog.wp_mono (fun h' s _ hs => ⟨rfl, rfl, hs⟩) (findSecondFrom_spec user 0 replies _ _)

theorem acquire_spec (b : Buffers) (h : History) : Prog.wp Licensed (acquire b) (Passed b) h := by
  simp only [acquire, Prog.wp_bind, wp_obtainStatus, licensed_obtainStatus, true_and]
  intro replies
  split
  · exact passed_refused b _
  · have hg : ∀ reply ∈ replies, Got (h ++ [⟨.obtainStatus (b.connection.map Subtype.val)
        (b.cls.map Subtype.val) (b.host.map Subtype.val), replies⟩]) reply := fun reply hreply =>
      ⟨_, _, _, replies, List.mem_append_right _ (List.mem_singleton.mpr rfl), hreply⟩
    rw [Prog.wp_bind]
    refine Prog.wp_mono ?_ (getTCPConnection_spec false replies b hg)
    rintro h' ⟨fd, b'⟩ hh ⟨hnull, hacq⟩
    dsimp only at hnull hacq ⊢
    split
    · exact ⟨hnull, hacq⟩
    · refine Prog.wp_mono (fun h'' r _ hr => ⟨hnull.trans hr.1, hr.2⟩)
        (getTCPConnection_spec true replies b' fun reply hreply => (hg reply hreply).mono hh)

theorem acquireFor_spec (k : Classes) (connection : Option (CharArray maxConnectionName))
    (host : Option (CharArray maxHostName)) (h : History) :
    Prog.wp Licensed (acquireFor k connection host) (fun h' r =>
      Buffers.SameNull ⟨connection, k.caller, host⟩ r.2 ∧
        (0 ≤ r.1 → ∃ conname conclass server, Obtained h' r.1 conname conclass server ∧
          Holds r.2.connection (cstr conname) ∧ Holds r.2.host (cstr server) ∧
          if k.atLocal then r.2.cls = k.caller else Holds r.2.cls (cstr conclass))) h := by
  rw [acquireFor, Prog.wp_bind]
  refine Prog.wp_mono ?_ (acquire_spec _ h)
  rintro h' ⟨fd, b⟩ _ ⟨hsame, hacq⟩
  dsimp only at hsame hacq ⊢
  cases hlocal : k.atLocal with
  | true =>
      simp only [Prog.wp_pure, Classes.callerAfter, hlocal, if_true]
      refine ⟨⟨hsame.connection, rfl, hsame.host⟩, fun hfd => ?_⟩
      obtain ⟨conname, conclass, server, hgranted, hn, -, hs⟩ := hacq hfd
      exact ⟨conname, conclass, server, hgranted, hn, hs, trivial⟩
  | false =>
      have hpointee : k.pointee = k.caller := by
        rw [Classes.pointee, if_neg (by simp [hlocal])]
      rw [hpointee] at hsame
      simp only [Prog.wp_pure, Classes.callerAfter, hlocal, Bool.false_eq_true, if_false]
      refine ⟨hsame, fun hfd => ?_⟩
      obtain ⟨conname, conclass, server, hgranted, hn, hc, hs⟩ := hacq hfd
      exact ⟨conname, conclass, server, hgranted, hn, hs, hc⟩

/-- What a search for a row leaves in the caller's buffers: the names of the
granted row, but for a search of the second port the class of the caller. -/
theorem search_spec (envClass : Option (List Byte)) (user : List Byte) (stack : CharArray maxClassName)
    (b : Buffers) (getserial2 : ℤ) (h : History) :
    Prog.wp Licensed (makeConnection.search envClass user stack b getserial2) (fun h' r =>
      b.SameNull r.2 ∧ (0 ≤ r.1 → ∃ conname conclass server, Obtained h' r.1 conname conclass server ∧
        Holds r.2.connection (cstr conname) ∧ Holds r.2.host (cstr server) ∧
        if getserial2 = 1 then r.2.cls = (defaultClass envClass stack b).caller
        else Holds r.2.cls (cstr conclass))) h := by
  -- the default class is written to a buffer, never to a pointer
  have hcaller : (defaultClass envClass stack b).caller.isSome = b.cls.isSome := by
    unfold defaultClass
    cases b.cls <;> rfl
  unfold makeConnection.search
  dsimp only
  split
  · rw [Prog.wp_bind]
    refine Prog.wp_mono ?_ (secondSerial_spec envClass user _ b h)
    rintro h' ⟨k, connection⟩ _ ⟨hk, hlocal, hconn⟩
    dsimp only at hk hlocal hconn ⊢
    refine Prog.wp_mono (fun h'' r _ hr => ?_)
      (acquireFor_spec k connection b.host h')
    simp only [hlocal, if_true, hk] at hr
    exact ⟨⟨hr.1.connection.trans hconn, hr.1.cls.trans hcaller, hr.1.host⟩, hr.2⟩
  · refine Prog.wp_mono (fun h' r _ hr => ?_) (acquireFor_spec _ b.connection b.host h)
    refine ⟨⟨hr.1.connection, hr.1.cls.trans hcaller, hr.1.host⟩, fun hfd => ?_⟩
    obtain ⟨conname, conclass, server, hgranted, hn, hs, hc⟩ := hr.2 hfd
    refine ⟨conname, conclass, server, hgranted, hn, hs, ?_⟩
    split at hc
    · next hl =>
        have hnone : (defaultClass envClass stack b).caller = none := by
          unfold defaultClass at hl ⊢
          cases hb : b.cls <;> simp [hb] at hl ⊢
        intro a ha
        rw [hc, hnone] at ha
        exact (Option.not_mem_none a ha).elim
    · exact hc

/-- **Breaks are licensed.** Whatever the buffers and the answers are, a client
asks for a break only of a row that a status reply lists as held for
`RESERVETIME` minutes. -/
theorem makeConnection_licensed (envClass : Option (List Byte)) (user : List Byte)
    (stack : CharArray maxClassName) (b : Buffers) (getserial2 : ℤ) (h : History) :
    Prog.wp Licensed (makeConnection envClass user stack b getserial2) (fun _ _ => True) h := by
  have hsearch : Prog.wp Licensed (makeConnection.search envClass user stack b getserial2)
      (fun _ _ => True) h :=
    Prog.wp_mono (fun _ _ _ _ => trivial) (search_spec envClass user stack b getserial2 h)
  unfold makeConnection
  split
  · split
    · simp only [Prog.wp_bind, wp_reqGeneric]
      refine ⟨licensed_make _ _ _ _, fun r => ?_⟩
      cases r <;> simp
    · exact hsearch
  · exact hsearch

/-! ### The port that is dialled -/

/-- What `reqTCPConnection` dials is the port in the reply to its only make
request, on the same host, and it hands back the names of that request. -/
def Dials (stat : StatusreplyData) (h : History)
    (r : ℤ × Option (CharArray maxConnectionName) × Option (CharArray maxClassName)) : Prop :=
  ∀ host port fd, ⟨.connectTCP host port, fd⟩ ∈ h →
    (∀ conname conclass server reply,
      ⟨.reqGeneric conname conclass server reqMakeConnection, some reply⟩ ∈ h →
        conname = stat.conname ∧ conclass = stat.conclass ∧ host = server ∧
          port = atoi (reply.details.read 0 maxDetails)) ∧
      Holds r.2.1 (cstr stat.conname) ∧
      Holds r.2.2 (cstr stat.conclass)

/-- No row was asked for and no port was dialled. -/
def Undialled (h : History) : Prop :=
  ∀ a ∈ h, (∀ host port, a.op ≠ .connectTCP host port) ∧
    ∀ conname conclass host, a.op ≠ .reqGeneric conname conclass host reqMakeConnection

theorem Undialled.dials {h : History} (hu : Undialled h) (stat : StatusreplyData)
    (r : ℤ × Option (CharArray maxConnectionName) × Option (CharArray maxClassName)) :
    Dials stat h r := fun host port _ hmem => absurd rfl ((hu _ hmem).1 host port)

theorem Undialled.snoc {h : History} (hu : Undialled h) {op : Op}
    (res : Res op) (hdial : ∀ host port, op ≠ .connectTCP host port)
    (hmake : ∀ conname conclass host, op ≠ .reqGeneric conname conclass host reqMakeConnection) :
    Undialled (h ++ [⟨op, res⟩]) := by
  intro a ha
  rcases List.mem_append.mp ha with ha | ha
  · exact hu a ha
  · obtain rfl := List.mem_singleton.mp ha
    exact ⟨hdial, hmake⟩

theorem makeRow_dials (connection : Option (CharArray maxConnectionName))
    (cls : Option (CharArray maxClassName)) (host : List Byte) (stat : StatusreplyData)
    {h : History} (hu : Undialled h) :
    Prog.wp (fun _ _ => True) (makeRow connection cls host stat) (Dials stat) h := by
  simp only [makeRow, Prog.wp_bind, wp_reqGeneric]
  refine ⟨trivial, fun answer => ?_⟩
  cases answer with
  | none =>
      intro host' port fd hmem
      rcases List.mem_append.mp hmem with hmem | hmem
      · exact absurd rfl ((hu _ hmem).1 host' port)
      · simp at hmem
  | some reply =>
      simp only [Prog.wp_bind]
      apply copyOut_spec trivial
      intro connection' _ hconn
      apply copyOut_spec trivial
      intro cls' _ hcls
      simp only [wp_connectTCP, Prog.wp_pure, true_and]
      intro fd host' port fd' hmem
      refine ⟨fun conname conclass server reply' hmade => ?_, hconn, hcls⟩
      have hport : host' = host ∧ port = atoi (reply.details.read 0 maxDetails) := by
        rcases List.mem_append.mp hmem with hmem | hmem
        · rcases List.mem_append.mp hmem with hmem | hmem
          · exact absurd rfl ((hu _ hmem).1 host' port)
          · simp at hmem
        · have := congrArg Answered.op (List.mem_singleton.mp hmem)
          exact Op.connectTCP.inj this
      -- the make request of the end is the only one of the run
      rcases List.mem_append.mp hmade with hmade | hmade
      · rcases List.mem_append.mp hmade with hmade | hmade
        · exact absurd rfl ((hu _ hmade).2 conname conclass server)
        · simp only [List.mem_singleton, Answered.mk.injEq, Op.reqGeneric.injEq] at hmade
          obtain ⟨⟨rfl, rfl, rfl, -⟩, hreply⟩ := hmade
          obtain rfl : reply' = reply := by simpa using hreply
          exact ⟨rfl, rfl, hport.1, hport.2⟩
      · simp at hmade

theorem breakRow_undialled (host : List Byte) (stat : StatusreplyData) {h : History}
    (hu : Undialled h) :
    Prog.wp (fun _ _ => True) (breakRow host stat) (fun h' _ => Undialled h') h := by
  unfold breakRow
  cases getMinutes stat.contime with
  | none => simp
  | some minutes =>
      dsimp only
      split
      · exact hu
      · simp only [Prog.wp_bind, wp_reqGeneric, true_and]
        intro answer
        have hasked := hu.snoc
          (show Res (.reqGeneric stat.conname stat.conclass host reqBreakConnection) from answer)
          (by simp) (by simp)
        cases answer with
        | none => exact hasked
        | some reply =>
            simp only [Prog.wp_bind, wp_usleep, Prog.wp_pure, true_and]
            exact fun r => hasked.snoc (show Res (.usleep 500) from r) (by simp) (by simp)

theorem reqTCPConnection_dials (connection : Option (CharArray maxConnectionName))
    (cls : Option (CharArray maxClassName)) (host : List Byte) (steal : Bool)
    (stat : StatusreplyData) :
    Prog.wp (fun _ _ => True) (reqTCPConnection connection cls host steal stat) (Dials stat) [] := by
  have hstart : Undialled [] := by simp [Undialled]
  unfold reqTCPConnection
  split
  · exact hstart.dials stat _
  · split
    · rw [Prog.wp_bind]
      refine Prog.wp_mono (fun h' go _ hu => ?_) (breakRow_undialled host stat hstart)
      split
      · exact makeRow_dials connection cls host stat hu
      · exact hu.dials stat _
    · exact makeRow_dials connection cls host stat hstart

end XinuConsole.MakeConnection
