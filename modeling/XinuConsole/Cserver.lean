import XinuConsole.Lib.Memory

/-!
The data of `include/cserver.h`: the size constants, the two datagram formats
and the in-core table of connections.

All members of the datagram structures are characters, so the structures have
no padding and their sizes are sums of array sizes. The length member
`MAXNCONNECTIONS` is computed as the header does, which for 512 connections
makes it 4.
-/

namespace XinuConsole

open Lib

@[simp] def maxHostName : ℕ := 64
@[simp] def maxConnections : ℕ := 512
@[simp] def maxUserName : ℕ := 16
@[simp] def maxConnectionName : ℕ := 16
@[simp] def maxClassName : ℕ := 16
@[simp] def maxTimeLength : ℕ := 12
@[simp] def maxNumberArgs : ℕ := 16
@[simp] def maxArgLength : ℕ := 64
/-- `RESERVETIME`, in minutes. -/
@[simp] def reserveTime : ℤ := 10

def defaultClassName : List Byte := text "mips"
def defaultSecClassName : List Byte := text "uart"

/-- The digits of a connection count and its terminator. -/
@[simp] def maxNConnections : ℕ := maxConnections / 1000 * 3 + 3 + 1

/-- `sizeof( struct statusreplyData )`. -/
@[simp] def sizeofStatusreplyData : ℕ :=
  maxConnectionName + maxClassName + 1 + maxUserName + maxTimeLength

theorem sizeofStatusreplyData_eq : sizeofStatusreplyData = 61 := rfl

@[simp] def maxDetails : ℕ := sizeofStatusreplyData * maxConnections

/-- `sizeof( struct reply )`. -/
@[simp] def sizeofReply : ℕ := 1 + 1 + maxHostName + maxNConnections + maxDetails

/-- `sizeof( struct request )`. -/
@[simp] def sizeofRequest : ℕ := 1 + 1 + maxUserName + maxConnectionName + maxClassName

/-- `CURVERSION`, the character `C`. -/
@[simp] def curVersion : Byte := 67

@[simp] def reqStatus : Byte := 4
@[simp] def reqTouchConnection : Byte := 8
@[simp] def reqMakeConnection : Byte := 9
@[simp] def reqBreakConnection : Byte := 10
@[simp] def reqVerboseOn : Byte := 13
@[simp] def reqVerboseOff : Byte := 14

@[simp] def respOk : Byte := 1
@[simp] def respErr : Byte := 2

def badPid : ℤ := -1

/-- `struct request`. -/
structure Request where
  version : Byte
  code : Byte
  user : CharArray maxUserName
  conname : CharArray maxConnectionName
  conclass : CharArray maxClassName
  deriving DecidableEq

/-- The bytes of a request, in the order of the structure. -/
def Request.bytes (req : Request) : List Byte :=
  req.version :: req.code :: (req.user.val ++ req.conname.val ++ req.conclass.val)

/-- `struct reply`. The last member is a character array that is used both as a
text and as an array of `struct statusreplyData`; it is kept as the memory that
starts at `reply.details`. -/
@[ext] structure Reply where
  version : Byte
  code : Byte
  hostname : CharArray maxHostName
  numconnections : CharArray maxNConnections
  details : Mem

/-- The bytes in front of `details`. -/
def Reply.header (reply : Reply) : List Byte :=
  reply.version :: reply.code :: (reply.hostname.val ++ reply.numconnections.val)

@[simp] theorem Reply.header_length (reply : Reply) : reply.header.length = 70 := by
  simp [Reply.header, reply.hostname.property, reply.numconnections.property]

/-! Member offsets of `struct statusreplyData`. -/

@[simp] def offConname : ℕ := 0
@[simp] def offConclass : ℕ := maxConnectionName
@[simp] def offActive : ℕ := maxConnectionName + maxClassName
@[simp] def offUser : ℕ := offActive + 1
@[simp] def offContime : ℕ := offUser + maxUserName

/-- What a reader of `struct statusreplyData` finds in its members. A string
is read from its member on up to the first NUL, over the member's end if there
is none inside, and not past the end of `details`. -/
structure StatusreplyData where
  conname : List Byte
  conclass : List Byte
  active : Byte
  user : List Byte
  contime : List Byte
  deriving DecidableEq

/-- The string found at offset `off` of `details`. -/
def Reply.stringAt (reply : Reply) (off : ℕ) : List Byte :=
  cstr (reply.details.read off (maxDetails - off))

/-- `( (struct statusreplyData *) reply->details )[ i ]`. -/
def Reply.stat (reply : Reply) (i : ℕ) : StatusreplyData :=
  let base := sizeofStatusreplyData * i
  { conname := reply.stringAt (base + offConname)
    conclass := reply.stringAt (base + offConclass)
    active := reply.details (base + offActive)
    user := reply.stringAt (base + offUser)
    contime := reply.stringAt (base + offContime) }

/-- A row of the table, `struct condata`; `next` is the order of the list. The
names are the strings their pointers refer to. The last four members are what
the configuration reader guarantees for every row it returns. -/
structure Condata where
  conname : List Byte
  conclass : List Byte
  conprog : List Byte
  progargs : List (List Byte)
  argsline : List Byte
  user : CharArray maxUserName
  conpid : ℤ
  contime : ℤ
  conname_str : (0 : Byte) ∉ conname ∧ conname.length < maxConnectionName
  conclass_str : (0 : Byte) ∉ conclass ∧ conclass.length < maxClassName
  progargs_le : progargs.length ≤ maxNumberArgs
  user_end : user.val[maxUserName - 1]? = some 0
  deriving DecidableEq

/-- The user as a string. -/
def Condata.userName (row : Condata) : List Byte := cstr row.user.val

theorem Condata.userName_length_lt (row : Condata) : row.userName.length < maxUserName :=
  Nat.lt_succ_of_le (CharArray.cstr_length_le_of_end row.user row.user_end)

end XinuConsole
