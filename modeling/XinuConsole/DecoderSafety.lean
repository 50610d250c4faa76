import XinuConsole.Lib.Object
import XinuConsole.StatusRoundTrip

/-!
The decoder of the status reply on arbitrary datagrams.

`recvfromReplyChecked` is `recvfromReply` of `lib/connectUtils.c` once more,
on objects: its own copy of the reply has only the bytes that were received,
and every load and store is checked. It has a result on every datagram, and it
is the one of the functions on memory (`recvfromReplyChecked_eq`).

`parseRecords` says what the records of a datagram are.
-/

namespace XinuConsole.ConnectUtils

open Lib

/-! ### The decoder on objects -/

/-- The offset of `details` in a `struct reply`. -/
@[simp] def offDetails : ℕ := sizeofReply - maxDetails

theorem offDetails_eq : offDetails = 70 := rfl

/-- The variables of the loop: the pointer into the copy, the bytes left and
the caller's reply. -/
structure CheckedCursor where
  ptr : ℕ
  dlen : ℕ
  reply : Object sizeofReply

def sgetChecked (replycopy : Object sizeofReply) :
    ℕ → ℕ → CheckedCursor → Option (Bool × CheckedCursor)
  | _, 0, c => some (false, c)
  | dst, max + 1, c =>
      if 0 < c.dlen then do
        let ch ← replycopy.load c.ptr
        let reply ← c.reply.store dst ch
        let c : CheckedCursor := { ptr := c.ptr + 1, dlen := c.dlen - 1, reply := reply }
        if ch = 0 then some (true, c) else sgetChecked replycopy (dst + 1) max c
      else some (false, c)

def recvRecordChecked (replycopy : Object sizeofReply) (dst : ℕ) (c : CheckedCursor) :
    Option (Bool × CheckedCursor) := do
  let (ok, c) ← sgetChecked replycopy (dst + offConname) maxConnectionName c
  if ok = false then some (false, c)
  else do
    let (ok, c) ← sgetChecked replycopy (dst + offConclass) maxClassName c
    if ok = false then some (false, c)
    else if c.dlen = 0 then some (false, c)
    else do
      let active ← replycopy.load c.ptr
      let c := { c with ptr := c.ptr + 1, dlen := c.dlen - 1 }
      if active = 0 then do
        let reply ← c.reply.store (dst + offActive) 0
        let reply ← reply.store (dst + offUser) 0
        let reply ← reply.store (dst + offContime) 0
        some (true, { c with reply := reply })
      else do
        let reply ← c.reply.store (dst + offActive) 1
        let (ok, c) ← sgetChecked replycopy (dst + offUser) maxUserName { c with reply := reply }
        if ok = false then some (false, c)
        else sgetChecked replycopy (dst + offContime) maxTimeLength c

def recvRecordsChecked (replycopy : Object sizeofReply) :
    ℕ → ℕ → CheckedCursor → Option (Bool × CheckedCursor)
  | 0, _, c => some (true, c)
  | numc + 1, i, c => do
      let (ok, c) ← recvRecordChecked replycopy (offDetails + sizeofStatusreplyData * i) c
      if ok = false then some (false, c)
      else recvRecordsChecked replycopy numc (i + 1) c

/-- The second half of `recvfromReply` on objects. -/
def recvDetailsChecked (replycopy : Object sizeofReply) (numc : ℤ) (dlen : ℕ)
    (reply : Object sizeofReply) : Option (ℤ × Object sizeofReply) :=
  let numc := if numc > maxNConnections then (maxNConnections : ℤ) else numc
  if numc ≤ 0 then do
    let dlen := if dlen = maxDetails then dlen - 1 else dlen
    let replycopy ← replycopy.store (offDetails + dlen) 0
    let text ← replycopy.loads offDetails (dlen + 1)
    let reply ← reply.stores offDetails text
    some (sizeofReply, reply)
  else do
    let (ok, c) ← recvRecordsChecked replycopy numc.toNat 0 ⟨offDetails, dlen, reply⟩
    some (if ok then sizeofReply else -1, c.reply)

/-- `recvfromReply` on objects: the return value and the caller's reply. -/
def recvfromReplyChecked (datagram : Option (List Byte)) (reply : Object sizeofReply) :
    Option (ℤ × Object sizeofReply) :=
  match datagram with
  | none => some (-1, reply)
  | some d =>
    let d := d.take sizeofReply
    let status := d.length
    let replycopy := Object.received sizeofReply d
    if status = 0 then some (-1, reply)
    else if status < sizeofReply - maxDetails then some (-1, reply)
    else do
      let dlen := status - (sizeofReply - maxDetails)
      let version ← replycopy.load 0
      if version ≠ curVersion then some (-1, reply)
      else do
        let replycopy ← replycopy.store (2 + (maxHostName - 1)) 0
        let replycopy ← replycopy.store (2 + maxHostName + (maxNConnections - 1)) 0
        let header ← replycopy.loads 0 (sizeofReply - maxDetails)
        let reply ← reply.stores 0 header
        let numconnections ← replycopy.loads (2 + maxHostName) maxNConnections
        recvDetailsChecked replycopy (atoi numconnections) dlen reply

/-! ### The decoder on objects and on memory -/

/-- The bytes of a reply: a header and `details`. -/
def joined (header : Mem) (details : Mem) : Mem :=
  fun i => if i < offDetails then header i else details (i - offDetails)

/-- A cursor on memory, seen on objects. -/
def Cursor.onObjects (header : Mem) (c : Cursor) : CheckedCursor :=
  ⟨offDetails + c.ptr, c.dlen, Object.ofMem _ (joined header c.details)⟩

@[simp] theorem Cursor.onObjects_ptr (header : Mem) (c : Cursor) :
    (c.onObjects header).ptr = offDetails + c.ptr := rfl

@[simp] theorem Cursor.onObjects_dlen (header : Mem) (c : Cursor) :
    (c.onObjects header).dlen = c.dlen := rfl

@[simp] theorem Cursor.onObjects_reply (header : Mem) (c : Cursor) :
    (c.onObjects header).reply = Object.ofMem _ (joined header c.details) := rfl

/-- The first `n` bytes of the details were received and are those of `src`. -/
def Arrived (replycopy : Object sizeofReply) (src : Mem) (n : ℕ) : Prop :=
  ∀ k, k < n → replycopy.load (offDetails + k) = some (src k)

theorem joined_details (header details : Mem) (k : ℕ) :
    joined header details (offDetails + k) = details k := by
  rw [joined, if_neg (by omega), Nat.add_sub_cancel_left]

theorem joined_set (header details : Mem) (k : ℕ) (b : Byte) :
    (joined header details).set (offDetails + k) b = joined header (details.set k b) := by
  funext i
  by_cases hi : i = offDetails + k
  · subst hi
    rw [Mem.set_self, joined_details, Mem.set_self]
  · rw [Mem.set_of_ne _ _ hi]
    unfold joined
    split
    · rfl
    · next hge => rw [Mem.set_of_ne _ _ (by omega)]

theorem joined_write (header details : Mem) (k : ℕ) (bs : List Byte) :
    (joined header details).write (offDetails + k) bs = joined header (details.write k bs) := by
  induction bs generalizing details k with
  | nil => rfl
  | cons b bs ih =>
      rw [Mem.write, joined_set, Nat.add_assoc, ih]
      rfl

/-- A store into the caller's details. -/
theorem store_joined (header details : Mem) {k : ℕ} (hk : k < maxDetails) (b : Byte) :
    (Object.ofMem sizeofReply (joined header details)).store (offDetails + k) b =
      some (Object.ofMem _ (joined header (details.set k b))) := by
  have hlt : offDetails + k < sizeofReply := by
    rw [show sizeofReply = offDetails + maxDetails from rfl]
    omega
  rw [Object.store_ofMem _ hlt, joined_set]

/-- What `sget` and a round of the loop leave alone: the end of the datagram. -/
theorem sget_extent (src : Mem) (dst max : ℕ) (c : Cursor) :
    (sget src dst max c).2.ptr + (sget src dst max c).2.dlen = c.ptr + c.dlen := by
  induction max generalizing dst c with
  | zero => rfl
  | succ max ih =>
      unfold sget
      split
      · dsimp only
        split
        · show c.ptr + 1 + (c.dlen - 1) = _
          omega
        · rw [ih]
          show c.ptr + 1 + (c.dlen - 1) = _
          omega
      · rfl

theorem sgetChecked_eq {replycopy : Object sizeofReply} {src : Mem} (header : Mem) (dst max : ℕ)
    (c : Cursor) (hsrc : Arrived replycopy src (c.ptr + c.dlen)) (hdst : dst + max ≤ maxDetails) :
    sgetChecked replycopy (offDetails + dst) max (c.onObjects header) =
      some ((sget src dst max c).1, (sget src dst max c).2.onObjects header) := by
  induction max generalizing dst c with
  | zero => rfl
  | succ max ih =>
      rw [sgetChecked, sget, Cursor.onObjects_dlen]
      by_cases hd : 0 < c.dlen
      · have hload : replycopy.load (offDetails + c.ptr) = some (src c.ptr) :=
          hsrc c.ptr (by omega)
        have hstore := store_joined header c.details (k := dst) (by omega) (src c.ptr)
        rw [if_pos hd, if_pos hd]
        simp only [Cursor.onObjects_ptr, Cursor.onObjects_reply, hload, hstore,
          Option.bind_eq_bind, Option.bind_some]
        split
        · rfl
        · have hrest : Arrived replycopy src (c.ptr + 1 + (c.dlen - 1)) := by
            rwa [show c.ptr + 1 + (c.dlen - 1) = c.ptr + c.dlen by omega]
          exact ih (dst + 1) ⟨c.ptr + 1, c.dlen - 1, c.details.set dst (src c.ptr)⟩ hrest (by omega)
      · rw [if_neg hd, if_neg hd]

theorem recvRecord_extent (src : Mem) (base : ℕ) (c : Cursor) :
    (recvRecord src base c).2.ptr + (recvRecord src base c).2.dlen = c.ptr + c.dlen := by
  have h₁ := sget_extent src (base + offConname) maxConnectionName c
  unfold recvRecord
  rcases hc₁ : sget src (base + offConname) maxConnectionName c with ⟨_ | _, c₁⟩ <;>
    rw [hc₁] at h₁ <;> dsimp only at h₁ ⊢
  · exact h₁
  have h₂ := sget_extent src (base + offConclass) maxClassName c₁
  rcases hc₂ : sget src (base + offConclass) maxClassName c₁ with ⟨_ | _, c₂⟩ <;>
    rw [hc₂] at h₂ <;> dsimp only at h₂ ⊢
  · exact h₂.trans h₁
  split
  · exact h₂.trans h₁
  next hd =>
  have hactive : c₂.ptr + 1 + (c₂.dlen - 1) = c.ptr + c.dlen := by omega
  split
  · exact hactive
  have h₃ := sget_extent src (base + offUser) maxUserName
    ⟨c₂.ptr + 1, c₂.dlen - 1, c₂.details.set (base + offActive) 1⟩
  rcases hc₃ : sget src (base + offUser) maxUserName
      ⟨c₂.ptr + 1, c₂.dlen - 1, c₂.details.set (base + offActive) 1⟩ with ⟨_ | _, c₃⟩ <;>
    rw [hc₃] at h₃ <;> dsimp only at h₃ ⊢
  · exact h₃.trans hactive
  · exact (sget_extent src _ _ c₃).trans (h₃.trans hactive)

/-- A round of the loop on objects is the round on memory. -/
theorem recvRecordChecked_eq {replycopy : Object sizeofReply} {src : Mem} (header : Mem)
    {base : ℕ} (c : Cursor) (hsrc : Arrived replycopy src (c.ptr + c.dlen))
    (hbase : base + sizeofStatusreplyData ≤ maxDetails) :
    recvRecordChecked replycopy (offDetails + base) (c.onObjects header) =
      some ((recvRecord src base c).1, (recvRecord src base c).2.onObjects header) := by
  rw [sizeofStatusreplyData_eq] at hbase
  have hget (off max : ℕ) (hoff : off + max ≤ 61) (c' : Cursor)
      (hc' : c'.ptr + c'.dlen = c.ptr + c.dlen) :
      sgetChecked replycopy (offDetails + base + off) max (c'.onObjects header) =
        some ((sget src (base + off) max c').1,
          (sget src (base + off) max c').2.onObjects header) := by
    rw [Nat.add_assoc]
    exact sgetChecked_eq header (base + off) max c' (by rwa [hc']) (by omega)
  have hput (off : ℕ) (hoff : off < 61) (m : Mem) (b : Byte) :
      (Object.ofMem sizeofReply (joined header m)).store (offDetails + base + off) b =
        some (Object.ofMem _ (joined header (m.set (base + off) b))) := by
    rw [Nat.add_assoc]
    exact store_joined header m (by omega) b
  have hx₁ := sget_extent src (base + offConname) maxConnectionName c
  rw [recvRecordChecked, recvRecord, hget _ _ (by decide) c rfl]
  rcases hc₁ : sget src (base + offConname) maxConnectionName c with ⟨_ | _, c₁⟩ <;>
    rw [hc₁] at hx₁ <;> dsimp only at hx₁
  · rfl
  have hx₂ := (sget_extent src (base + offConclass) maxClassName c₁).trans hx₁
  rw [Option.bind_eq_bind, Option.bind_some]
  dsimp only
  rw [if_neg (by simp), hget _ _ (by decide) c₁ hx₁]
  rcases hc₂ : sget src (base + offConclass) maxClassName c₁ with ⟨_ | _, c₂⟩ <;>
    rw [hc₂] at hx₂ <;> dsimp only at hx₂
  · rfl
  rw [Option.bind_eq_bind, Option.bind_some]
  dsimp only
  rw [if_neg (by simp), Cursor.onObjects_dlen]
  by_cases hd : c₂.dlen = 0
  · rw [if_pos hd, if_pos hd]
  have hload : replycopy.load (offDetails + c₂.ptr) = some (src c₂.ptr) := hsrc _ (by omega)
  have hactive : c₂.ptr + 1 + (c₂.dlen - 1) = c.ptr + c.dlen := by omega
  rw [if_neg hd, if_neg hd, Cursor.onObjects_ptr, hload, Option.bind_some]
  by_cases ha : src c₂.ptr = 0
  · rw [if_pos ha, if_pos ha, Cursor.onObjects_reply]
    simp only [hput _ (show offActive < 61 by decide), hput _ (show offUser < 61 by decide),
      hput _ (show offContime < 61 by decide), Option.bind_eq_bind, Option.bind_some]
    rfl
  rw [if_neg ha, if_neg ha, Cursor.onObjects_reply, hput _ (by decide), Option.bind_eq_bind,
    Option.bind_some]
  have hx₃ := (sget_extent src (base + offUser) maxUserName
    ⟨c₂.ptr + 1, c₂.dlen - 1, c₂.details.set (base + offActive) 1⟩).trans hactive
  have e₃ := hget offUser maxUserName (by decide)
    ⟨c₂.ptr + 1, c₂.dlen - 1, c₂.details.set (base + offActive) 1⟩ hactive
  show (sgetChecked replycopy (offDetails + base + offUser) maxUserName
    (Cursor.onObjects header ⟨c₂.ptr + 1, c₂.dlen - 1, c₂.details.set (base + offActive) 1⟩)).bind
      _ = _
  rw [e₃]
  rcases hc₃ : sget src (base + offUser) maxUserName
      ⟨c₂.ptr + 1, c₂.dlen - 1, c₂.details.set (base + offActive) 1⟩ with ⟨_ | _, c₃⟩ <;>
    rw [hc₃] at hx₃ <;> dsimp only at hx₃
  · rfl
  rw [Option.bind_some]
  dsimp only
  rw [if_neg (by simp), hget _ _ (by decide) c₃ hx₃]

theorem recvRecordsChecked_eq {replycopy : Object sizeofReply} {src : Mem} (header : Mem)
    {n i : ℕ} (c : Cursor) (hsrc : Arrived replycopy src (c.ptr + c.dlen))
    (hn : sizeofStatusreplyData * (i + n) ≤ maxDetails) :
    recvRecordsChecked replycopy n i (c.onObjects header) =
      some ((recvRecords src n i c).1, (recvRecords src n i c).2.2.onObjects header) := by
  induction n generalizing i c with
  | zero => rfl
  | succ n ih =>
      rw [sizeofStatusreplyData_eq] at hn
      have hx := recvRecord_extent src (sizeofStatusreplyData * i) c
      rw [recvRecordsChecked, recvRecords,
        recvRecordChecked_eq header c hsrc (by rw [sizeofStatusreplyData_eq]; omega)]
      rcases hc : recvRecord src (sizeofStatusreplyData * i) c with ⟨_ | _, c₁⟩ <;>
        rw [hc] at hx <;> dsimp only at hx
      · rfl
      · rw [Option.bind_eq_bind, Option.bind_some]
        dsimp only
        rw [if_neg (by simp)]
        exact ih c₁ (by rwa [hx]) (by rw [sizeofStatusreplyData_eq]; omega)

/-! ### The whole datagram on objects -/

theorem joined_congr {header header' : Mem} (details : Mem)
    (h : ∀ i, i < offDetails → header i = header' i) :
    joined header details = joined header' details := by
  funext i
  unfold joined
  split
  · next hi => exact h i hi
  · rfl

/-- The object of a reply all of whose bytes were stored. -/
def replyObject (reply : Reply) : Object sizeofReply :=
  Object.ofMem _ (joined (fun i => reply.header.getD i 0) reply.details)

/-- The copy of the datagram with the terminators of the two header strings. -/
def terminated (d : List Byte) (junk : Mem) : Mem :=
  ((Mem.ofList d junk).set (2 + (maxHostName - 1)) 0).set
    (2 + maxHostName + (maxNConnections - 1)) 0

/-- The reply that goes on to the decoding of the details. -/
def terminatedReply (d : List Byte) (junk : Mem) : Reply :=
  { replyOfBytes d junk with
    hostname := (replyOfBytes d junk).hostname.set (maxHostName - 1) 0
    numconnections := (replyOfBytes d junk).numconnections.set (maxNConnections - 1) 0 }

theorem terminatedReply_numconnections (d : List Byte) (junk : Mem) :
    (terminatedReply d junk).numconnections.val =
      (terminated d junk).read (2 + maxHostName) maxNConnections := by
  rw [terminated, Mem.read_set, Mem.read_set_disjoint _ _ (by decide)]
  rfl

theorem terminatedReply_header (d : List Byte) (junk : Mem) :
    (terminatedReply d junk).header = (terminated d junk).read 0 offDetails := by
  have hsplit : (terminated d junk).read 0 offDetails =
      (terminated d junk).read 0 2 ++ ((terminated d junk).read 2 maxHostName ++
        (terminated d junk).read (2 + maxHostName) maxNConnections) := by
    rw [← Mem.read_add, show (2 : ℕ) = 0 + 2 from rfl, ← Mem.read_add]
    rfl
  have hhost : (terminated d junk).read 2 maxHostName =
      (terminatedReply d junk).hostname.val := by
    rw [terminated, Mem.read_set_disjoint _ _ (by decide), Mem.read_set]
    rfl
  have htwo : (terminated d junk).read 0 2 =
      [(terminatedReply d junk).version, (terminatedReply d junk).code] := by
    rw [terminated, Mem.read_set_disjoint _ _ (by decide), Mem.read_set_disjoint _ _ (by decide)]
    rfl
  rw [hsplit, hhost, htwo, ← terminatedReply_numconnections]
  rfl

theorem terminated_details (d : List Byte) (junk : Mem) (k : ℕ) :
    terminated d junk (offDetails + k) = (replyOfBytes d junk).details k := by
  rw [terminated, Mem.set_of_ne, Mem.set_of_ne]
  · rfl
  · simp
    omega
  · simp
    omega

/-- The header of the datagram over that of the caller's reply. -/
theorem stores_header (d : List Byte) (junk : Mem) (prior : Reply) :
    (replyObject prior).stores 0 ((terminated d junk).read 0 offDetails) =
      some (Object.ofMem _ (joined (terminated d junk) prior.details)) := by
  have hlen : 0 + ((terminated d junk).read 0 offDetails).length ≤ sizeofReply := by simp
  rw [replyObject, Object.stores_ofMem _ hlen, Option.some.injEq]
  congr 1
  funext i
  by_cases hi : i < offDetails
  · have hlt : i < ((terminated d junk).read 0 offDetails).length := by simpa using hi
    have := Mem.write_getElem (joined (fun i => prior.header.getD i 0) prior.details) 0 _ hlt
    rw [Nat.zero_add] at this
    rw [this, Mem.read_getElem, Nat.zero_add, joined, if_pos hi]
  · rw [Mem.write_of_ge _ _ (by simp only [Mem.read_length]; omega), joined, joined, if_neg hi,
      if_neg hi]

/-- A reply with the header of the datagram, as an object. -/
theorem replyObject_terminated (d : List Byte) (junk details : Mem) :
    replyObject { terminatedReply d junk with details := details } =
      Object.ofMem _ (joined (terminated d junk) details) := by
  rw [replyObject]
  congr 1
  apply joined_congr
  intro i hi
  show (terminatedReply d junk).header.getD i 0 = _
  rw [terminatedReply_header, List.getD_eq_getElem _ _ (by simpa using hi), Mem.read_getElem,
    Nat.zero_add]

/-- The second half of the decoder on objects is the one on memory. -/
theorem recvDetailsChecked_eq {replycopy : Object sizeofReply} {d : List Byte} {junk : Mem}
    (prior : Reply) (numc : ℤ) {dlen : ℕ} (hdlen : dlen ≤ maxDetails)
    (hcopy : replycopy.Agrees (terminated d junk) 0 (offDetails + dlen)) :
    recvDetailsChecked replycopy numc dlen
        (Object.ofMem _ (joined (terminated d junk) prior.details)) =
      some ((recvDetails (replyOfBytes d junk).details numc dlen
          { terminatedReply d junk with details := prior.details }).ret,
        replyObject (recvDetails (replyOfBytes d junk).details numc dlen
          { terminatedReply d junk with details := prior.details }).reply) := by
  have hsize : sizeofReply = offDetails + maxDetails := rfl
  unfold recvDetailsChecked recvDetails
  dsimp only
  generalize hm : (if numc > maxNConnections then (maxNConnections : ℤ) else numc) = m
  have hle : m ≤ 4 := by
    have hmax : (maxNConnections : ℤ) = 4 := rfl
    rw [hmax] at hm
    split at hm <;> omega
  by_cases hpos : m ≤ 0
  · rw [if_pos hpos, if_pos hpos]
    -- the text with its terminator
    generalize hn : (if dlen = maxDetails then dlen - 1 else dlen) = n
    have hroom : 0 < maxDetails := by decide
    have hn' : n ≤ dlen ∧ n < maxDetails := by
      split at hn <;> omega
    obtain ⟨o, ho, hload⟩ := Object.load_store replycopy (i := offDetails + n) (by omega) 0
    have htext : o.Agrees ((terminated d junk).set (offDetails + n) 0) offDetails (n + 1) := by
      intro i hi hi'
      rw [hload]
      by_cases hin : i = offDetails + n
      · rw [if_pos hin, hin, Mem.set_self]
      · rw [if_neg hin, Mem.set_of_ne _ _ hin]
        exact hcopy i (Nat.zero_le _) (by omega)
    have hread : ((terminated d junk).set (offDetails + n) 0).read offDetails (n + 1) =
        ((replyOfBytes d junk).details.set n 0).read 0 (n + 1) := by
      refine List.ext_getElem (by simp) fun i h₁ h₂ => ?_
      rw [Mem.read_getElem, Mem.read_getElem, Nat.zero_add]
      by_cases hin : i = n
      · subst hin
        rw [Mem.set_self, Mem.set_self]
      · rw [Mem.set_of_ne _ _ hin, Mem.set_of_ne _ _ (by omega), terminated_details]
    have hfit : offDetails + (((replyOfBytes d junk).details.set n 0).read 0 (n + 1)).length ≤
        sizeofReply := by
      rw [Mem.read_length]
      omega
    simp only [ho, htext.loads_eq, hread, Object.stores_ofMem _ hfit, Option.bind_eq_bind,
      Option.bind_some]
    have hjoin := joined_write (terminated d junk) prior.details 0
      (((replyOfBytes d junk).details.set n 0).read 0 (n + 1))
    rw [Nat.add_zero] at hjoin
    rw [hjoin, ← replyObject_terminated]
  · rw [if_neg hpos, if_neg hpos]
    have hrecords := @recvRecordsChecked_eq replycopy (replyOfBytes d junk).details
      (terminated d junk) m.toNat 0 ⟨0, dlen, prior.details⟩
      (fun k hk => by
        rw [hcopy _ (Nat.zero_le _) (by dsimp only at hk; omega), terminated_details])
      (by
        apply Nat.mul_le_mul_left
        simp only [maxConnections]
        omega)
    have hstart : (⟨offDetails, dlen, Object.ofMem _ (joined (terminated d junk) prior.details)⟩ :
        CheckedCursor) = Cursor.onObjects (terminated d junk) ⟨0, dlen, prior.details⟩ := by
      rw [Cursor.onObjects, Nat.add_zero]
    rw [hstart, hrecords, Option.bind_eq_bind, Option.bind_some]
    rcases hrun : recvRecords (replyOfBytes d junk).details m.toNat 0
      ⟨0, dlen, prior.details⟩ with ⟨_ | _, i, c⟩
    · simp only [Bool.false_eq_true, if_false]
      rw [replyObject_terminated]
      rfl
    · simp only [if_true]
      rw [replyObject_terminated]
      rfl

/-- **The decoder stays within its objects.** On every datagram the decoder on
objects has a result: it loads received bytes and its own terminators only, and
stores inside its copy and the caller's reply only. The result is that of
`recvfromReply`, whatever lies on the stack. -/
theorem recvfromReplyChecked_eq (junk : Mem) (datagram : Option (List Byte)) (prior : Reply) :
    recvfromReplyChecked datagram (replyObject prior) =
      some ((recvfromReply junk datagram prior).ret,
        replyObject (recvfromReply junk datagram prior).reply) := by
  cases datagram with
  | none => rfl
  | some d =>
      unfold recvfromReplyChecked recvfromReply
      dsimp only
      generalize hd : d.take sizeofReply = d'
      have hlen : d'.length ≤ sizeofReply := by
        rw [← hd]
        exact List.length_take_le _ _
      by_cases h₀ : d'.length = 0
      · rw [if_pos h₀, if_pos h₀]
      rw [if_neg h₀, if_neg h₀]
      by_cases hshort : d'.length < sizeofReply - maxDetails
      · rw [if_pos hshort, if_pos hshort]
      rw [if_neg hshort, if_neg hshort]
      have hoff : offDetails ≤ d'.length := Nat.le_of_not_lt hshort
      have hsize : sizeofReply = offDetails + maxDetails := rfl
      have hcopy := Object.agrees_received junk hlen
      have hversion : (Object.received sizeofReply d').load 0 =
          some (replyOfBytes d' junk).version :=
            hcopy 0 le_rfl (by rw [offDetails_eq] at hoff; omega)
      rw [hversion, Option.bind_eq_bind, Option.bind_some]
      by_cases hv : (replyOfBytes d' junk).version ≠ curVersion
      · rw [if_pos hv, if_pos hv]
      rw [if_neg hv, if_neg hv]
      obtain ⟨o₁, ho₁, hcopy₁⟩ := hcopy.stored (i := 2 + (maxHostName - 1)) (by decide) 0
      obtain ⟨o₂, ho₂, hcopy₂⟩ := hcopy₁.stored (i := 2 + maxHostName + (maxNConnections - 1))
        (by decide) 0
      have hcopy₂ : o₂.Agrees (terminated d' junk) 0 d'.length := hcopy₂
      have hheader : o₂.loads 0 (sizeofReply - maxDetails) =
          some ((terminated d' junk).read 0 offDetails) :=
        (hcopy₂.mono le_rfl (by rw [Nat.zero_add, Nat.zero_add]; exact hoff)).loads_eq
      have hcount : o₂.loads (2 + maxHostName) maxNConnections =
          some (terminatedReply d' junk).numconnections.val := by
        rw [terminatedReply_numconnections]
        exact (hcopy₂.mono (Nat.zero_le _) (by rw [Nat.zero_add]; exact hoff)).loads_eq
      rw [ho₁, Option.bind_eq_bind, Option.bind_some, ho₂, Option.bind_eq_bind, Option.bind_some,
        hheader, Option.bind_some, stores_header, Option.bind_some, hcount, Option.bind_some]
      rw [show d'.length - (sizeofReply - maxDetails) = d'.length - offDetails from rfl]
      apply recvDetailsChecked_eq
      · omega
      · rwa [Nat.add_sub_cancel' hoff]

/-! ### The records of a datagram -/

/-- A string at the front of the bytes, terminated within `max` of them, and
what follows it. There is none if the bytes end before or the string is too
long. -/
def takeString (max : ℕ) (bs : List Byte) : Option (List Byte × List Byte) :=
  if 0 ∈ bs.take max then some (cstr bs, bs.drop ((cstr bs).length + 1)) else none

/-- A record at the front of the bytes. The flag of a held row is any byte but NUL. -/
def parseRecord (bs : List Byte) : Option (StatusreplyData × List Byte) := do
  let (conname, bs) ← takeString maxConnectionName bs
  let (conclass, bs) ← takeString maxClassName bs
  match bs with
  | [] => none
  | active :: bs =>
    if active = 0 then some (⟨conname, conclass, 0, [], []⟩, bs)
    else do
      let (user, bs) ← takeString maxUserName bs
      let (contime, bs) ← takeString maxTimeLength bs
      some (⟨conname, conclass, 1, user, contime⟩, bs)

def parseRecords : ℕ → List Byte → Option (List StatusreplyData)
  | 0, _ => some []
  | n + 1, bs => do
      let (r, bs) ← parseRecord bs
      let rs ← parseRecords n bs
      some (r :: rs)

theorem takeString_eq_some {max : ℕ} {bs s rest : List Byte}
    (h : takeString max bs = some (s, rest)) :
    bs = s ++ 0 :: rest ∧ (0 : Byte) ∉ s ∧ s.length < max := by
  rw [takeString, Option.ite_none_right_eq_some, Option.some.injEq, Prod.mk.injEq] at h
  obtain ⟨hmem, rfl, rfl⟩ := h
  refine ⟨?_, zero_not_mem_cstr bs, ?_⟩
  · exact eq_cstr_append_of_mem (List.mem_of_mem_take hmem)
  · have hlt := cstr_length_lt_of_mem hmem
    rw [cstr_take, List.length_take, List.length_take] at hlt
    omega

/-- The bytes left at a cursor. -/
def Cursor.rest (src : Mem) (c : Cursor) : List Byte := src.read c.ptr c.dlen

/-- `sget` takes the string that is there. -/
theorem sget_of_takeString {src : Mem} {c : Cursor} {max : ℕ} {s rest : List Byte} (dst : ℕ)
    (h : takeString max (c.rest src) = some (s, rest)) :
    ∃ c', sget src dst max c = (true, c') ∧ c'.rest src = rest ∧
      c'.details = c.details.write dst (s ++ [0]) := by
  obtain ⟨hbs, hs, hmax⟩ := takeString_eq_some h
  have hlen : c.dlen = s.length + 1 + rest.length := by
    have := congrArg List.length hbs
    rw [Cursor.rest, Mem.read_length, List.length_append, List.length_cons] at this
    omega
  have hsplit : src.read c.ptr (s.length + 1) = s ++ [0] ∧
      src.read (c.ptr + (s.length + 1)) rest.length = rest := by
    rw [Cursor.rest, hlen, Mem.read_add, List.append_cons] at hbs
    exact List.append_inj hbs (by simp)
  refine ⟨_, sget_str src hs dst max c hmax ?_ (by omega), ?_, rfl⟩
  · rw [HoldsStr, Mem.Has, List.length_append, List.length_singleton]
    exact hsplit.1
  · rw [Cursor.rest]
    dsimp only
    rw [hlen, Nat.add_sub_cancel_left]
    exact hsplit.2

/-- `sget` fails where there is no string that fits. -/
theorem sget_of_takeString_none {src : Mem} {c : Cursor} {max : ℕ} (dst : ℕ)
    (h : takeString max (c.rest src) = none) : (sget src dst max c).1 = false := by
  have hmem : (0 : Byte) ∉ (c.rest src).take max := by
    intro hmem
    rw [takeString, if_pos hmem] at h
    exact absurd h (by simp)
  clear h
  induction max generalizing dst c with
  | zero => rfl
  | succ max ih =>
      rw [sget]
      by_cases hd : 0 < c.dlen
      · obtain ⟨k, hk⟩ : ∃ k, c.dlen = 1 + k := ⟨c.dlen - 1, by omega⟩
        have hrest : c.rest src = src c.ptr :: src.read (c.ptr + 1) k := by
          rw [Cursor.rest, hk, Mem.read_add]
          rfl
        rw [hrest, List.take_succ_cons, List.mem_cons, not_or] at hmem
        rw [if_pos hd]
        dsimp only
        rw [if_neg (Ne.symm hmem.1)]
        apply ih
        rw [Cursor.rest]
        dsimp only
        rw [hk, Nat.add_sub_cancel_left]
        exact hmem.2
      · rw [if_neg hd]

/-- A copy that succeeds took the string that is there. -/
theorem sget_parse {src : Mem} {dst max : ℕ} {c c' : Cursor}
    (h : sget src dst max c = (true, c')) :
    ∃ s, takeString max (c.rest src) = some (s, c'.rest src) ∧ (0 : Byte) ∉ s ∧ s.length < max ∧
      c'.details = c.details.write dst (s ++ [0]) := by
  cases ht : takeString max (c.rest src) with
  | none =>
      have := sget_of_takeString_none dst ht
      rw [h] at this
      exact absurd this (by simp)
  | some p =>
      obtain ⟨s, rest⟩ := p
      obtain ⟨-, hs, hmax⟩ := takeString_eq_some ht
      obtain ⟨c'', hc'', rfl, hd⟩ := sget_of_takeString dst ht
      obtain rfl : c' = c'' := (Prod.mk.inj (h.symm.trans hc'')).2
      exact ⟨s, rfl, hs, hmax, hd⟩

/-- The byte at a cursor with bytes left. -/
theorem Cursor.rest_cons (src : Mem) {c : Cursor} (h : c.dlen ≠ 0) (details : Mem) :
    c.rest src = src c.ptr :: Cursor.rest src ⟨c.ptr + 1, c.dlen - 1, details⟩ := by
  obtain ⟨k, hk⟩ : ∃ k, c.dlen = 1 + k := ⟨c.dlen - 1, by omega⟩
  rw [Cursor.rest, Cursor.rest, hk, Mem.read_add, Nat.add_sub_cancel_left]
  rfl

/-- A round of the loop that goes well expanded the record that is there. -/
theorem recvRecord_parse {src : Mem} {base : ℕ} {c c' : Cursor}
    (h : recvRecord src base c = (true, c')) :
    ∃ r, parseRecord (c.rest src) = some (r, c'.rest src) ∧ WellFormed r ∧
      Holds c'.details base r := by
  unfold recvRecord at h
  split at h
  · exact absurd h (by simp)
  next c₁ e₁ =>
  obtain ⟨conname, h₁, hs₁, hmax₁, hd₁⟩ := sget_parse e₁
  split at h
  · exact absurd h (by simp)
  next c₂ e₂ =>
  obtain ⟨conclass, h₂, hs₂, hmax₂, hd₂⟩ := sget_parse e₂
  split at h
  · exact absurd h (by simp)
  next hlen =>
  dsimp only at h
  split at h
  · -- a free row ends with its flag
    next ha =>
    obtain ⟨-, rfl⟩ := Prod.mk.inj h
    have hwf : WellFormed ⟨conname, conclass, 0, [], []⟩ :=
      ⟨⟨hs₁, hmax₁⟩, ⟨hs₂, hmax₂⟩, by simp, by simp, Or.inl ⟨rfl, rfl, rfl⟩⟩
    refine ⟨_, ?_, hwf, ?_⟩
    · simp only [parseRecord, h₁, h₂, Cursor.rest_cons src hlen c₂.details, ha,
        Option.bind_eq_bind, Option.bind_some, if_true]
      rfl
    · rw [hd₂, hd₁]
      exact holds_free c.details base hwf rfl rfl rfl
  · next ha =>
    split at h
    · exact absurd h (by simp)
    next c₃ e₃ =>
    obtain ⟨user, h₃, hs₃, hmax₃, hd₃⟩ := sget_parse e₃
    obtain ⟨contime, h₄, hs₄, hmax₄, hd₄⟩ := sget_parse h
    have hwf : WellFormed ⟨conname, conclass, 1, user, contime⟩ :=
      ⟨⟨hs₁, hmax₁⟩, ⟨hs₂, hmax₂⟩, ⟨hs₃, hmax₃⟩, ⟨hs₄, hmax₄⟩, Or.inr rfl⟩
    refine ⟨_, ?_, hwf, ?_⟩
    · simp only [parseRecord, h₁, h₂,
        Cursor.rest_cons src hlen (c₂.details.set (base + offActive) 1),
        ha, h₃, h₄, Option.bind_eq_bind, Option.bind_some, if_false]
    · rw [hd₄, hd₃]
      dsimp only
      rw [hd₂, hd₁]
      exact holds_held c.details base hwf rfl

/-- A record that is there is expanded. -/
theorem recvRecord_of_parse {src : Mem} {c : Cursor} {r : StatusreplyData} {rest : List Byte}
    (base : ℕ) (h : parseRecord (c.rest src) = some (r, rest)) :
    ∃ c', recvRecord src base c = (true, c') ∧ c'.rest src = rest := by
  rw [parseRecord] at h
  obtain ⟨⟨conname, bs₁⟩, h₁, h⟩ := Option.bind_eq_some_iff.mp h
  obtain ⟨c₁, e₁, rfl, -⟩ := sget_of_takeString (base + offConname) h₁
  obtain ⟨⟨conclass, bs₂⟩, h₂, h⟩ := Option.bind_eq_some_iff.mp h
  obtain ⟨c₂, e₂, rfl, -⟩ := sget_of_takeString (base + offConclass) h₂
  have hlen : c₂.dlen ≠ 0 := by
    intro hzero
    rw [Cursor.rest, hzero] at h
    exact absurd h (by simp [Mem.read])
  rw [Cursor.rest_cons src hlen c₂.details] at h
  rw [recvRecord, e₁]
  dsimp only
  rw [e₂]
  dsimp only at h ⊢
  rw [if_neg hlen]
  split at h
  · next ha =>
      rw [if_pos ha]
      exact ⟨_, rfl, (Prod.mk.inj (Option.some.inj h)).2⟩
  · next ha =>
      rw [if_neg ha]
      obtain ⟨⟨user, bs₃⟩, h₃, h⟩ := Option.bind_eq_some_iff.mp h
      have h₃' : takeString maxUserName (Cursor.rest src
        ⟨c₂.ptr + 1, c₂.dlen - 1, c₂.details.set (base + offActive) 1⟩) = some (user, bs₃) := h₃
      obtain ⟨c₃, e₃, rfl, -⟩ := sget_of_takeString (base + offUser) h₃'
      obtain ⟨⟨contime, bs₄⟩, h₄, h⟩ := Option.bind_eq_some_iff.mp h
      obtain ⟨c₄, e₄, rfl, -⟩ := sget_of_takeString (base + offContime) h₄
      rw [e₃]
      dsimp only
      rw [e₄]
      exact ⟨c₄, rfl, (Prod.mk.inj (Option.some.inj h)).2⟩

theorem recvRecords_of_parse {src : Mem} {n i : ℕ} {c : Cursor} {rs : List StatusreplyData}
    (h : parseRecords n (c.rest src) = some rs) : (recvRecords src n i c).1 = true := by
  induction n generalizing i c rs with
  | zero => rfl
  | succ n ih =>
      rw [parseRecords] at h
      obtain ⟨⟨r, rest⟩, hr, h⟩ := Option.bind_eq_some_iff.mp h
      obtain ⟨rs', hrs, -⟩ := Option.bind_eq_some_iff.mp h
      obtain ⟨c', hc', rfl⟩ := recvRecord_of_parse (sizeofStatusreplyData * i) hr
      rw [recvRecords, hc']
      exact ih hrs

/-- The loop goes well only over records that are there, and it expands them. -/
theorem recvRecords_parse {src : Mem} {n i : ℕ} {c : Cursor} (h : (recvRecords src n i c).1 = true) :
    parseRecords n (c.rest src) ≠ none ∧ ∀ j, j < n → ∃ r, WellFormed r ∧
      Holds (recvRecords src n i c).2.2.details (sizeofStatusreplyData * (i + j)) r := by
  induction n generalizing i c with
  | zero => exact ⟨by simp [parseRecords], fun j hj => absurd hj (Nat.not_lt_zero j)⟩
  | succ n ih =>
      rw [recvRecords] at h ⊢
      rcases hc : recvRecord src (sizeofStatusreplyData * i) c with ⟨_ | _, c₁⟩ <;> rw [hc] at h
      · exact absurd h (by simp)
      obtain ⟨r, hr, hwf, hhold⟩ := recvRecord_parse hc
      obtain ⟨hrest, hrecords⟩ := ih h
      refine ⟨?_, fun j hj => ?_⟩
      · obtain ⟨rs, hrs⟩ := Option.ne_none_iff_exists'.mp hrest
        simp [parseRecords, hr, hrs]
      · cases j with
        | zero =>
            refine ⟨r, hwf, hhold.congr hwf fun k _ hk => ?_⟩
            -- the later rounds store behind this record only
            exact recvRecords_frame src n (i + 1) c₁ (Or.inl (by
              rw [sizeofStatusreplyData_eq] at hk ⊢
              omega))
        | succ j =>
            obtain ⟨r', hwf', hhold'⟩ := hrecords j (by omega)
            rw [show i + 1 + j = i + (j + 1) by omega] at hhold'
            exact ⟨r', hwf', hhold'⟩

/-! ### The whole datagram -/

/-- What an accepted datagram leaves in the caller's `details`: a text, or as
many records as it announces up to the limit of the loop. -/
def Decoded (d : List Byte) (details : Mem) : Prop :=
  if announced d ≤ 0 then ∃ s, (0 : Byte) ∉ s ∧ s.length < maxDetails ∧ HoldsStr details 0 s
  else ∀ j, j < min (announced d).toNat maxNConnections →
    ∃ r, WellFormed r ∧ Holds details (sizeofStatusreplyData * j) r

theorem recvDetails_text {src : Mem} {numc : ℤ} {dlen : ℕ} {reply : Reply} (hnumc : numc ≤ 0)
    (hdlen : dlen ≤ maxDetails) : ∃ s, (0 : Byte) ∉ s ∧ s.length < maxDetails ∧
      HoldsStr (recvDetails src numc dlen reply).reply.details 0 s := by
  have hclamp : (if numc > maxNConnections then (maxNConnections : ℤ) else numc) ≤ 0 := by
    have hmax : (maxNConnections : ℤ) = 4 := rfl
    rw [hmax]
    split <;> omega
  unfold recvDetails
  dsimp only
  rw [if_pos hclamp]
  generalize hn : (if dlen = maxDetails then dlen - 1 else dlen) = n
  have hroom : 0 < maxDetails := by decide
  have hlt : n < maxDetails := by
    split at hn <;> omega
  generalize htext : (src.set n 0).read 0 (n + 1) = text
  have hmem : (0 : Byte) ∈ text := by
    rw [← htext, Mem.read_add]
    simp [Mem.read]
  have hlen := cstr_length_lt_of_mem hmem
  rw [← htext, Mem.read_length, htext] at hlen
  refine ⟨cstr text, zero_not_mem_cstr text, by omega, ?_⟩
  have hhas := Mem.has_write reply.details 0 text
  have hsplit : text = (cstr text ++ [0]) ++ text.drop ((cstr text).length + 1) := by
    rw [List.append_assoc]
    exact eq_cstr_append_of_mem hmem
  rw [hsplit] at hhas
  have := (Mem.has_append.mp hhas).1
  rwa [← hsplit] at this

theorem recvDetails_records {src : Mem} {numc : ℤ} {dlen : ℕ} {reply : Reply} (hnumc : 0 < numc)
    (h : (recvDetails src numc dlen reply).ret ≠ -1) :
    parseRecords (min numc.toNat maxNConnections) (src.read 0 dlen) ≠ none ∧
      ∀ j, j < min numc.toNat maxNConnections → ∃ r, WellFormed r ∧
        Holds (recvDetails src numc dlen reply).reply.details (sizeofStatusreplyData * j) r := by
  have hclamp : (if numc > maxNConnections then (maxNConnections : ℤ) else numc) =
      (min numc.toNat maxNConnections : ℕ) := by
    have hmax : (maxNConnections : ℤ) = 4 := rfl
    rw [hmax]
    split <;> simp only [maxNConnections, maxConnections] <;> omega
  have hpos : ¬((min numc.toNat maxNConnections : ℕ) : ℤ) ≤ 0 := by
    simp only [maxNConnections, maxConnections]
    omega
  unfold recvDetails at h ⊢
  dsimp only at h ⊢
  rw [hclamp, if_neg hpos, Int.toNat_natCast] at h ⊢
  have hparse := @recvRecords_parse src (min numc.toNat maxNConnections) 0 ⟨0, dlen, reply.details⟩
  rcases hc : recvRecords src (min numc.toNat maxNConnections) 0 ⟨0, dlen, reply.details⟩ with
    ⟨_ | _, i, c⟩ <;> rw [hc] at h hparse
  · exact absurd rfl h
  · obtain ⟨hsome, hhold⟩ := hparse rfl
    refine ⟨hsome, fun j hj => ?_⟩
    have := hhold j hj
    rwa [Nat.zero_add] at this

/-- A datagram with a whole header of the right version goes on to its details. -/
theorem recvfromReply_of_header {junk : Mem} {d : List Byte} {prior : Reply}
    (hd : d.length ≤ sizeofReply) (hlen : offDetails ≤ d.length) (hhead : d.head? = some curVersion) :
    recvfromReply junk (some d) prior =
      recvDetails (replyOfBytes d junk).details (announced d) (d.length - offDetails)
        { terminatedReply d junk with details := prior.details } := by
  have hcount : atoi ((replyOfBytes d junk).numconnections.set (maxNConnections - 1) 0).val =
      announced d := by
    simp only [CharArray.set, replyOfBytes]
    rw [Mem.read_ofList _ _ hlen, announced]
  have hversion : (replyOfBytes d junk).version = curVersion := by
    cases d with
    | nil => exact absurd hhead (by simp)
    | cons b d => exact Option.some.inj hhead
  have hempty : ¬d.length = 0 := by
    rw [offDetails_eq] at hlen
    omega
  rw [recvfromReply]
  dsimp only
  rw [List.take_of_length_le hd, if_neg hempty,
    if_neg (show ¬d.length < sizeofReply - maxDetails from Nat.not_lt.mpr hlen),
    if_neg (not_not.mpr hversion), hcount]
  rfl

theorem recvDetails_of_parse {src : Mem} {numc : ℤ} {dlen : ℕ} {reply : Reply}
    {rs : List StatusreplyData}
    (h : parseRecords (min numc.toNat maxNConnections) (src.read 0 dlen) = some rs) :
    (recvDetails src numc dlen reply).ret = sizeofReply := by
  have hmax : (maxNConnections : ℤ) = 4 := rfl
  rw [recvDetails]
  dsimp only
  generalize hclamp : (if numc > maxNConnections then (maxNConnections : ℤ) else numc) = n
  rw [hmax] at hclamp
  by_cases hn : n ≤ 0
  · rw [if_pos hn]
  · have htoNat : n.toNat = min numc.toNat maxNConnections := by
      rw [← hclamp]
      split <;> simp only [maxNConnections, maxConnections] <;> omega
    have hrecords := @recvRecords_of_parse src _ 0 ⟨0, dlen, reply.details⟩ rs h
    rw [if_neg hn, htoNat]
    rcases hc : recvRecords src (min numc.toNat maxNConnections) 0 ⟨0, dlen, reply.details⟩ with
      ⟨ok, i, c⟩
    obtain rfl : ok = true := by rwa [hc] at hrecords
    rfl

/-- What it takes for a datagram to be accepted, and how it goes on then. -/
theorem recvfromReply_inv {junk : Mem} {d : List Byte} {prior : Reply}
    (hd : d.length ≤ sizeofReply) (h : (recvfromReply junk (some d) prior).ret ≠ -1) :
    offDetails ≤ d.length ∧ d.head? = some curVersion ∧
      recvfromReply junk (some d) prior =
        recvDetails (replyOfBytes d junk).details (announced d) (d.length - offDetails)
          { terminatedReply d junk with details := prior.details } := by
  rw [recvfromReply] at h
  dsimp only at h
  rw [List.take_of_length_le hd] at h
  split at h
  · exact absurd rfl h
  split at h
  · exact absurd rfl h
  rename_i hempty hshort
  split at h
  · exact absurd rfl h
  rename_i hversion
  have hlen : offDetails ≤ d.length := Nat.le_of_not_lt hshort
  have hhead : d.head? = some curVersion := by
    cases d with
    | nil => exact absurd rfl hempty
    | cons b d => exact congrArg some (not_not.mp hversion)
  exact ⟨hlen, hhead, recvfromReply_of_header hd hlen hhead⟩

/-- The details of a datagram that was received as a whole. -/
theorem replyOfBytes_details_read {d : List Byte} (junk : Mem) (h : offDetails ≤ d.length) :
    (replyOfBytes d junk).details.read 0 (d.length - offDetails) = d.drop offDetails := by
  refine List.ext_getElem (by simp) fun i h₁ h₂ => ?_
  rw [Mem.read_length] at h₁
  rw [Mem.read_getElem, Nat.zero_add]
  show Mem.ofList d junk (offDetails + i) = _
  rw [Mem.ofList, List.getD_eq_getElem _ _ (by omega), List.getElem_drop]

/-- The datagrams that are well-formed replies, of what is received of them: a
whole header of the right version, and the records it announces, as many as
are looked at. -/
def wellFormedReply (d : List Byte) : Bool :=
  let d := d.take sizeofReply
  offDetails ≤ d.length && d.head? = some curVersion && (announced d ≤ 0 ||
    (parseRecords (min (announced d).toNat maxNConnections) (d.drop offDetails)).isSome)

theorem recvfromReply_take (junk : Mem) (d : List Byte) (prior : Reply) :
    recvfromReply junk (some (d.take sizeofReply)) prior = recvfromReply junk (some d) prior := by
  rw [recvfromReply, recvfromReply]
  dsimp only
  rw [List.take_take, min_self]

/-- The decoder accepts the well-formed replies, whatever its memory holds. -/
theorem recvfromReply_ret (junk : Mem) (d : List Byte) (prior : Reply) :
    (recvfromReply junk (some d) prior).ret = if wellFormedReply d then (sizeofReply : ℤ) else -1 := by
  rw [← recvfromReply_take, wellFormedReply]
  have hd : (d.take sizeofReply).length ≤ sizeofReply := List.length_take_le _ _
  generalize d.take sizeofReply = e at hd
  split
  · next hwf =>
      simp only [Bool.and_eq_true, Bool.or_eq_true, decide_eq_true_eq] at hwf
      obtain ⟨⟨hlen, hhead⟩, hrecords⟩ := hwf
      obtain ⟨rs, hrs⟩ : ∃ rs, parseRecords (min (announced e).toNat maxNConnections)
          (e.drop offDetails) = some rs := by
        rcases hrecords with hnumc | hsome
        · rw [Int.toNat_of_nonpos hnumc, Nat.zero_min]
          exact ⟨[], rfl⟩
        · exact Option.isSome_iff_exists.mp hsome
      rw [recvfromReply_of_header hd hlen hhead]
      exact recvDetails_of_parse (by rwa [replyOfBytes_details_read _ hlen])
  · next hwf =>
      by_contra hret
      obtain ⟨hlen, hhead, heq⟩ := recvfromReply_inv hd hret
      apply hwf
      simp only [Bool.and_eq_true, Bool.or_eq_true, decide_eq_true_eq]
      refine ⟨⟨hlen, hhead⟩, ?_⟩
      by_cases hnumc : announced e ≤ 0
      · exact .inl hnumc
      · rw [heq] at hret
        have hsome := (recvDetails_records (Int.not_le.mp hnumc) hret).1
        rw [replyOfBytes_details_read _ hlen] at hsome
        exact .inr (Option.isSome_iff_ne_none.mpr hsome)

/-- **The decoder is safe on every datagram.** It ends, reads received bytes and
its own terminators only, and stores inside the caller's reply and its copy
only. What it accepts is a text or well-formed records, and it refuses a wrong
version and records with a field cut off or too long. -/
theorem recvfromReply_safe {d : List Byte} (hd : d.length ≤ sizeofReply) (prior : Reply) :
    ∃ rv reply, recvfromReplyChecked (some d) (replyObject prior) = some (rv, replyObject reply) ∧
      (rv ≠ -1 → Decoded d reply.details) ∧
      (d.head? ≠ some curVersion → rv = -1) ∧
      (0 < announced d → parseRecords (min (announced d).toNat maxNConnections)
        (d.drop offDetails) = none → rv = -1) := by
  refine ⟨_, _, recvfromReplyChecked_eq (fun _ => 0) (some d) prior, ?_, ?_, ?_⟩
  · intro hrv
    obtain ⟨hlen, -, heq⟩ := recvfromReply_inv hd hrv
    rw [heq] at hrv ⊢
    rw [Decoded]
    have hsize : sizeofReply = 70 + maxDetails := rfl
    split
    · next hnumc =>
      apply recvDetails_text hnumc
      rw [offDetails_eq]
      omega
    · next hnumc => exact (recvDetails_records (Int.not_le.mp hnumc) hrv).2
  · intro hhead
    by_contra hrv
    exact hhead (recvfromReply_inv hd hrv).2.1
  · intro hnumc hnone
    by_contra hrv
    obtain ⟨hlen, -, heq⟩ := recvfromReply_inv hd hrv
    rw [heq] at hrv
    have := (recvDetails_records hnumc hrv).1
    rw [replyOfBytes_details_read _ hlen] at this
    exact this hnone

/-- Four rows are decoded into records, of a reply that had nothing in it. -/
theorem recvfromReply_safe_four :
    ∃ rv reply, recvfromReplyChecked (some (fourRows "  4"))
        (replyObject ⟨0, 0, CharArray.zero _, CharArray.zero _, fun _ => 0⟩) =
      some (rv, replyObject reply) ∧ (rv ≠ -1 → Decoded (fourRows "  4") reply.details) := by
  obtain ⟨rv, reply, h, hdecoded, -⟩ := recvfromReply_safe (d := fourRows "  4") (by decide)
    ⟨0, 0, CharArray.zero _, CharArray.zero _, fun _ => 0⟩
  exact ⟨rv, reply, h, hdecoded⟩

end XinuConsole.ConnectUtils
