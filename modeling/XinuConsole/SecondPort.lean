import XinuConsole.Keepalive

/-!
The search for the second serial port, `findSecond` of `lib/makeConnection.c`.

The search goes through the rows that have the user's name, server by server,
and leaves a server at its first row whose name is too long or whose second port
seems to be free. The status of a port is looked up at the number of the server,
and what is returned is decided by the last server that was left, while the
buffer holds the last name that was asked for.
-/

namespace XinuConsole.MakeConnection

open Lib ConnectUtils

/-! ### What the search is for -/

/-- `row` is one of the rows that the replies announce. -/
def Announced (replies : List Reply) (row : StatusreplyData) : Prop :=
  ∃ reply ∈ replies, ∃ j : ℕ, (j : ℤ) < atoi reply.numconnections.val ∧ row = reply.stat j

/-- The name of the second port of a row. -/
def portName (row : StatusreplyData) : List Byte := cstr row.conname ++ [50]

/-- The row is held by the user, the name of its second port fits, and the
status of that port has no active row. -/
structure Suitable (status : List Byte → List Reply) (user : List Byte)
    (row : StatusreplyData) : Prop where
  held : row.active ≠ 0
  own : strnequ row.user user maxUserName = true
  fits : (portName row).length < maxConnectionName
  idle : ∀ row', Announced (status (portName row)) row' → row'.active = 0

/-! ### The rows of the user -/

/-- The row number `j` is in the reply and has the user's name. -/
structure OwnAt (user : List Byte) (reply : Reply) (j : ℕ) : Prop where
  stored : j < maxConnections
  announced : (j : ℤ) < atoi reply.numconnections.val
  own : strnequ (reply.stat j).user user maxUserName = true

/-- A name that the search has no room for. -/
def TooLong (row : StatusreplyData) : Prop := 14 ≤ (cstr row.conname).length

/-- In the status of the row's second port the reply for the server number `i`
begins with an active row. -/
def SeemsTaken (status : List Byte → List Reply) (i : ℕ) (row : StatusreplyData) : Prop :=
  ∃ reply2, (status (portName row))[i]? = some reply2 ∧ 0 < atoi reply2.numconnections.val ∧
    (reply2.stat 0).active = 1

/-- The row number `j` is the user's first row on the server number `i` whose
name is too long or whose second port seems to be free. -/
structure LeavesAt (status : List Byte → List Reply) (user : List Byte) (i : ℕ) (reply : Reply)
    (j : ℕ) : Prop where
  own : OwnAt user reply j
  stops : TooLong (reply.stat j) ∨ ¬SeemsTaken status i (reply.stat j)
  before : ∀ j' < j, OwnAt user reply j' →
    ¬TooLong (reply.stat j') ∧ SeemsTaken status i (reply.stat j')

/-- Where a second port seems to be free, its status is empty or has a reply for
the server: no reply to an earlier query is looked at instead. -/
def Fresh (status : List Byte → List Reply) (user : List Byte) (replies : List Reply) : Prop :=
  ∀ i reply j, replies[i]? = some reply → LeavesAt status user i reply j →
    ¬TooLong (reply.stat j) → status (portName (reply.stat j)) = [] ∨
      i < (status (portName (reply.stat j))).length

/-- No earlier query has left a reply where one is missing: the row is the user's
first one on its server, and the status of no other port was so long. -/
def NoLeftover (status : List Byte → List Reply) (user : List Byte) (replies : List Reply) : Prop :=
  ∀ i reply j, replies[i]? = some reply → LeavesAt status user i reply j →
    ¬TooLong (reply.stat j) → status (portName (reply.stat j)) = [] ∨
      i < (status (portName (reply.stat j))).length ∨
        ((∀ j' < j, ¬OwnAt user reply j') ∧ ∀ i' reply' j', i' < i → replies[i']? = some reply' →
          OwnAt user reply' j' → ¬TooLong (reply'.stat j') →
            (status (portName (reply'.stat j'))).length ≤ i)

/-- The server number `i` is the last one with such a row. -/
structure LastLeft (status : List Byte → List Reply) (user : List Byte) (replies : List Reply)
    (i : ℕ) (reply : Reply) (j : ℕ) : Prop where
  server : replies[i]? = some reply
  leaves : LeavesAt status user i reply j
  last : ∀ i' reply' j', i < i' → replies[i']? = some reply' → ¬LeavesAt status user i' reply' j'

/-- The last server that is left is left at a row that is suitable, or named like
one, and no server behind it has a row of the user. -/
def PicksSuitable (status : List Byte → List Reply) (user : List Byte) (replies : List Reply) :
    Prop :=
  ∃ i reply j, LastLeft status user replies i reply j ∧ ¬TooLong (reply.stat j) ∧
    (∀ i' reply' j', i < i' → replies[i']? = some reply' → ¬OwnAt user reply' j') ∧
    ∃ row, Announced replies row ∧ Suitable status user row ∧ portName row = portName (reply.stat j)

/-- No server is left, or the last one is left at a name that is too long. -/
def PicksNone (status : List Byte → List Reply) (user : List Byte) (replies : List Reply) : Prop :=
  ∀ i reply j, LastLeft status user replies i reply j → TooLong (reply.stat j)

/-- The search does not run off the end of a reply. -/
def EndsInside (status : List Byte → List Reply) (user : List Byte) (replies : List Reply) : Prop :=
  ∀ i reply, replies[i]? = some reply →
    atoi reply.numconnections.val ≤ maxConnections ∨ ∃ j, LeavesAt status user i reply j

/-- Every server is left or gone through, and a suitable row is picked if there is one. -/
def Picks (status : List Byte → List Reply) (user : List Byte) (replies : List Reply) : Prop :=
  Fresh status user replies ∧ EndsInside status user replies ∧
    (PicksSuitable status user replies ∨
      (PicksNone status user replies ∧ ∀ row, Announced replies row → ¬Suitable status user row))

section Rows

variable {status : List Byte → List Reply} {user : List Byte} {replies : List Reply}

theorem LeavesAt.unique {i : ℕ} {reply : Reply} {j j' : ℕ} (h : LeavesAt status user i reply j)
    (h' : LeavesAt status user i reply j') : j = j' := by
  have hle : ∀ j j', LeavesAt status user i reply j → LeavesAt status user i reply j' → j' ≤ j := by
    intro j j' h h'
    by_contra hlt
    obtain ⟨hshort, htaken⟩ := h'.before j (by omega) h.own
    exact h.stops.elim hshort fun hfree => hfree htaken
  exact le_antisymm (hle j' j h' h) (hle j j' h h')

theorem LastLeft.unique {i i' : ℕ} {reply reply' : Reply} {j j' : ℕ}
    (h : LastLeft status user replies i reply j) (h' : LastLeft status user replies i' reply' j') :
    i = i' ∧ reply = reply' ∧ j = j' := by
  have hi : i = i' := by
    by_contra hne
    rcases Nat.lt_or_gt_of_ne hne with hlt | hlt
    · exact h.last _ _ _ hlt h'.server h'.leaves
    · exact h'.last _ _ _ hlt h.server h.leaves
  subst hi
  obtain rfl : reply = reply' := Option.some.inj (h.server.symm.trans h'.server)
  exact ⟨rfl, rfl, h.leaves.unique h'.leaves⟩

/-- A row whose port seems taken is not suitable, nor is one of its name. -/
theorem not_suitable_of_taken {i : ℕ} {row row' : StatusreplyData} (h : SeemsTaken status i row)
    (hname : portName row' = portName row) : ¬Suitable status user row' := by
  intro hsuit
  obtain ⟨reply2, hreply2, hcount, hactive⟩ := h
  have hidle := hsuit.idle (reply2.stat 0)
    ⟨reply2, hname ▸ List.mem_of_getElem? hreply2, 0, hcount, rfl⟩
  rw [hactive] at hidle
  exact absurd hidle (by decide)

end Rows

/-! ### The search of one server -/

/-- The replies to the query for the primary ports, and for a second port by
its name. -/
def portAnswers (primary : List Reply) (status : List Byte → List Reply) :
    (op : Op) → Option (Res op)
  | .obtainStatus none _ _ => some primary
  | .obtainStatus (some name) _ _ => some (status (cstr name))
  | _ => none

/-- The buffer for the second name holds the first name with a `2` behind it. -/
theorem cstr_secondName (b : CharArray maxConnectionName) {row : StatusreplyData}
    (h : ¬TooLong row) :
    cstr (secondName b row.conname ((cstr row.conname).take maxConnectionName).length).val =
      portName row := by
  rw [TooLong, not_le] at h
  have hlen : ((cstr row.conname).take maxConnectionName).length = (cstr row.conname).length := by
    rw [List.length_take]
    simp only [maxConnectionName]
    omega
  obtain ⟨k, hk⟩ : ∃ k, 16 - (cstr row.conname).length = k + 2 :=
    ⟨14 - (cstr row.conname).length, by omega⟩
  have hcopy : strncpyBytes row.conname 16 = cstr row.conname ++ 0 :: 0 :: List.replicate k 0 := by
    rw [strncpyBytes, hk, List.take_of_length_le (by omega)]
    rfl
  have hval : (secondName b row.conname ((cstr row.conname).take maxConnectionName).length).val =
      portName row ++ 0 :: (List.replicate k 0 ++ b.val.drop 16) := by
    rw [hlen, portName]
    simp [secondName, CharArray.set, CharArray.strncpy, hcopy]
  have hmem : (0 : Byte) ∉ portName row := by
    simp [portName, zero_not_mem_cstr]
  rw [hval, cstr_append_zero hmem]

theorem strnlen_iff (row : StatusreplyData) :
    maxConnectionName - 2 ≤ ((cstr row.conname).take maxConnectionName).length ↔ TooLong row := by
  rw [List.length_take, TooLong]
  simp only [maxConnectionName]
  omega

section Value

variable (answer : (op : Op) → Option (Res op)) (replies2 : ℕ → Option Reply) (i q : ℕ)

@[simp] theorem value_undefined {α : Type} (h : answer .undefined = none) :
    Prog.value answer (undefined : Client α) = none := by
  rw [undefined, Prog.value_call, h]
  rfl

theorem secondTaken_true : secondTaken replies2 i q true = pure true := by
  cases q <;> rfl

/-- All rounds of the innermost loop look at the same reply. -/
theorem secondTaken_of_entry {reply2 : Reply} (h : replies2 i = some reply2) :
    secondTaken replies2 i (q + 1) false =
      pure (decide (0 < atoi reply2.numconnections.val ∧ (reply2.stat 0).active = 1)) := by
  induction q with
  | zero => simp only [secondTaken, h, if_neg Bool.false_ne_true]
  | succ q ih =>
      rw [secondTaken, if_neg Bool.false_ne_true, h]
      dsimp only
      cases htaken : decide (0 < atoi reply2.numconnections.val ∧ (reply2.stat 0).active = 1) with
      | false => rw [ih, htaken]
      | true => exact secondTaken_true replies2 i (q + 1)

end Value

section Server

variable (primary : List Reply) (status : List Byte → List Reply) (user : List Byte) {i : ℕ}
  {reply : Reply}

/-- One round on a row of the user whose name is not too long. -/
theorem findInReply_own {k j : ℕ} {s : Second} {b : CharArray maxConnectionName}
    (hj : j < maxConnections) (hown : strnequ (reply.stat j).user user maxUserName = true)
    (hshort : ¬TooLong (reply.stat j)) (hb : s.secname = some b) :
    ∃ replies2 a, cstr a.val = portName (reply.stat j) ∧
      (∀ q, replies2 q = ((status (portName (reply.stat j)))[q]?).or (s.replies2 q)) ∧
      Prog.value (portAnswers primary status) (findInReply user i reply (k + 1) j s) =
        (Prog.value (portAnswers primary status)
          (secondTaken replies2 i (status (portName (reply.stat j))).length false)).bind fun taken =>
            Prog.value (portAnswers primary status)
              (if taken then findInReply user i reply k (j + 1) ⟨some a, s.listnum, replies2⟩
                else pure ⟨some a, j, replies2⟩) := by
  let row := reply.stat j
  let a := secondName b row.conname ((cstr row.conname).take maxConnectionName).length
  have hname : cstr a.val = portName row := cstr_secondName b hshort
  refine ⟨fun q => ((status (portName row))[q]?).or (s.replies2 q), a, hname, fun q => rfl, ?_⟩
  rw [findInReply, if_neg (not_le.mpr hj), if_pos hown]
  dsimp only
  rw [if_neg (fun h => hshort ((strnlen_iff _).mp h)), hb]
  dsimp only
  have hasked : Prog.value (portAnswers primary status)
      (obtainStatus (some a.val) (some getdfltSecClass) none) = some (status (portName row)) := by
    rw [obtainStatus, Prog.value_perform, portAnswers, hname]
  rw [Prog.value_bind, hasked, Option.bind_some, Prog.value_bind]

theorem findInReply_other {k j : ℕ} {s : Second} (hj : j < maxConnections)
    (hown : ¬strnequ (reply.stat j).user user maxUserName = true) :
    findInReply user i reply (k + 1) j s = findInReply user i reply k (j + 1) s := by
  rw [findInReply, if_neg (not_le.mpr hj), if_neg hown]

theorem findInReply_taken {k j : ℕ} {s : Second} {b : CharArray maxConnectionName}
    (hj : j < maxConnections) (hown : strnequ (reply.stat j).user user maxUserName = true)
    (hshort : ¬TooLong (reply.stat j)) (htaken : SeemsTaken status i (reply.stat j))
    (hb : s.secname = some b) :
    ∃ s' a, s'.secname = some a ∧ cstr a.val = portName (reply.stat j) ∧ s'.listnum = s.listnum ∧
      Prog.value (portAnswers primary status) (findInReply user i reply (k + 1) j s) =
        Prog.value (portAnswers primary status) (findInReply user i reply k (j + 1) s') := by
  obtain ⟨replies2, a, ha, hentry, hvalue⟩ :=
    findInReply_own primary status user (k := k) hj hown hshort hb
  obtain ⟨reply2, hreply2, hactive⟩ := htaken
  obtain ⟨q, hq⟩ : ∃ q, (status (portName (reply.stat j))).length = q + 1 :=
    Nat.exists_eq_add_one.mpr (Nat.zero_lt_of_lt (List.getElem?_eq_some_iff.mp hreply2).1)
  refine ⟨⟨some a, s.listnum, replies2⟩, a, rfl, ha, rfl, ?_⟩
  have hread : replies2 i = some reply2 := by rw [hentry, hreply2, Option.some_or]
  rw [hvalue, hq, secondTaken_of_entry replies2 i q hread, Prog.value_pure, Option.bind_some,
    decide_eq_true hactive]
  rfl

/-- The server is left at a row that seems free. -/
theorem findInReply_free {k j : ℕ} {s : Second} {b : CharArray maxConnectionName}
    (hj : j < maxConnections) (hown : strnequ (reply.stat j).user user maxUserName = true)
    (hshort : ¬TooLong (reply.stat j)) (hfree : ¬SeemsTaken status i (reply.stat j))
    (hfresh : status (portName (reply.stat j)) = [] ∨
      i < (status (portName (reply.stat j))).length) (hb : s.secname = some b) :
    ∃ s' a, s'.secname = some a ∧ cstr a.val = portName (reply.stat j) ∧ s'.listnum = (j : ℤ) ∧
      Prog.value (portAnswers primary status) (findInReply user i reply (k + 1) j s) = some s' := by
  obtain ⟨replies2, a, ha, hentry, hvalue⟩ :=
    findInReply_own primary status user (k := k) hj hown hshort hb
  refine ⟨⟨some a, j, replies2⟩, a, rfl, ha, rfl, ?_⟩
  rw [hvalue]
  rcases hfresh with hempty | hlt
  · rw [hempty]
    rfl
  · obtain ⟨q, hq⟩ : ∃ q, (status (portName (reply.stat j))).length = q + 1 :=
      Nat.exists_eq_add_one.mpr (Nat.zero_lt_of_lt hlt)
    obtain ⟨reply2, hreply2⟩ : ∃ reply2, (status (portName (reply.stat j)))[i]? = some reply2 :=
      ⟨_, List.getElem?_eq_getElem hlt⟩
    have hinactive : ¬(0 < atoi reply2.numconnections.val ∧ (reply2.stat 0).active = 1) :=
      fun h => hfree ⟨reply2, hreply2, h⟩
    have hread : replies2 i = some reply2 := by rw [hentry, hreply2, Option.some_or]
    rw [hq, secondTaken_of_entry replies2 i q hread, Prog.value_pure, Option.bind_some,
      decide_eq_false hinactive]
    rfl

theorem findInReply_tooLong {k j : ℕ} {s : Second} (hj : j < maxConnections)
    (hown : strnequ (reply.stat j).user user maxUserName = true)
    (hlong : TooLong (reply.stat j)) :
    findInReply user i reply (k + 1) j s = pure { s with listnum := -1 } := by
  rw [findInReply, if_neg (not_le.mpr hj), if_pos hown]
  dsimp only
  rw [if_pos ((strnlen_iff _).mpr hlong)]

/-- The search leaves the server at the row number `j₀`. -/
theorem findInReply_leaves {j₀ k j : ℕ} {s : Second} {b : CharArray maxConnectionName}
    (hj : j ≤ j₀) (hk : j₀ < j + k) (hleaves : LeavesAt status user i reply j₀)
    (hfresh : ¬TooLong (reply.stat j₀) → status (portName (reply.stat j₀)) = [] ∨
      i < (status (portName (reply.stat j₀))).length) (hb : s.secname = some b) :
    ∃ s' a, s'.secname = some a ∧
      Prog.value (portAnswers primary status) (findInReply user i reply k j s) = some s' ∧
      (TooLong (reply.stat j₀) → s'.listnum = -1) ∧
      (¬TooLong (reply.stat j₀) → s'.listnum = (j₀ : ℤ) ∧
        cstr a.val = portName (reply.stat j₀)) := by
  induction k generalizing j s b with
  | zero => omega
  | succ k ih =>
      have hstored : j < maxConnections := hj.trans_lt hleaves.own.stored
      rcases hj.lt_or_eq with hlt | rfl
      · by_cases hown : strnequ (reply.stat j).user user maxUserName = true
        · have hbound := hleaves.own.announced
          obtain ⟨hshort, htaken⟩ := hleaves.before j hlt ⟨hstored, by omega, hown⟩
          obtain ⟨s₁, a₁, hs₁, -, -, hvalue⟩ :=
            findInReply_taken primary status user (k := k) hstored hown hshort htaken hb
          rw [hvalue]
          exact ih (by omega) (by omega) hs₁
        · rw [findInReply_other user hstored hown]
          exact ih (by omega) (by omega) hb
      · by_cases hlong : TooLong (reply.stat j)
        · rw [findInReply_tooLong user hstored hleaves.own.own hlong]
          exact ⟨{ s with listnum := -1 }, b, hb, rfl, fun _ => rfl,
            fun hshort => absurd hlong hshort⟩
        · obtain ⟨s', a, hs', ha, hlistnum, hvalue⟩ := findInReply_free primary status user (k := k)
            hstored hleaves.own.own hlong (hleaves.stops.resolve_left hlong) (hfresh hlong) hb
          exact ⟨s', a, hs', hvalue, fun h => absurd h hlong, fun _ => ⟨hlistnum, ha⟩⟩

/-- The search goes through all rows, and no server is left here. -/
theorem findInReply_through {k j : ℕ} {s : Second} {b : CharArray maxConnectionName}
    (hk : j + k ≤ maxConnections)
    (hpassed : ∀ j', j ≤ j' → j' < j + k →
      strnequ (reply.stat j').user user maxUserName = true →
        ¬TooLong (reply.stat j') ∧ SeemsTaken status i (reply.stat j')) (hb : s.secname = some b) :
    ∃ s' a, s'.secname = some a ∧
      Prog.value (portAnswers primary status) (findInReply user i reply k j s) = some s' ∧
      s'.listnum = s.listnum ∧
      ((a = b ∧ ∀ j', j ≤ j' → j' < j + k →
          ¬strnequ (reply.stat j').user user maxUserName = true) ∨
        ∃ j' < j + k, strnequ (reply.stat j').user user maxUserName = true ∧
          SeemsTaken status i (reply.stat j') ∧ cstr a.val = portName (reply.stat j')) := by
  induction k generalizing j s b with
  | zero => exact ⟨s, b, hb, rfl, rfl, .inl ⟨rfl, fun j' _ _ => by omega⟩⟩
  | succ k ih =>
      have hstored : j < maxConnections := by omega
      by_cases hown : strnequ (reply.stat j).user user maxUserName = true
      · obtain ⟨hshort, htaken⟩ := hpassed j le_rfl (by omega) hown
        obtain ⟨s₁, a₁, hs₁, ha₁, hlistnum₁, hvalue₁⟩ :=
          findInReply_taken primary status user (k := k) hstored hown hshort htaken hb
        obtain ⟨s', a, hs', hvalue, hlistnum, hname⟩ :=
          ih (j := j + 1) (by omega) (fun j' hj' hlt => hpassed j' (by omega) (by omega)) hs₁
        refine ⟨s', a, hs', hvalue₁.trans hvalue, hlistnum.trans hlistnum₁, .inr ?_⟩
        rcases hname with ⟨rfl, -⟩ | ⟨j', hj', hname⟩
        · exact ⟨j, by omega, hown, htaken, ha₁⟩
        · exact ⟨j', by omega, hname⟩
      · obtain ⟨s', a, hs', hvalue, hlistnum, hname⟩ :=
          ih (j := j + 1) (by omega) (fun j' hj' hlt => hpassed j' (by omega) (by omega)) hb
        rw [findInReply_other user hstored hown]
        refine ⟨s', a, hs', hvalue, hlistnum, ?_⟩
        rcases hname with ⟨ha, hnone⟩ | ⟨j', hj', hname⟩
        · refine .inl ⟨ha, fun j' hj' hlt => ?_⟩
          rcases hj'.lt_or_eq with h | rfl
          · exact hnone j' h (by omega)
          · exact hown
        · exact .inr ⟨j', by omega, hname⟩

/-- The search runs off the end of the reply. -/
theorem findInReply_beyond {k j : ℕ} {s : Second} {b : CharArray maxConnectionName}
    (hj : j ≤ maxConnections) (hk : maxConnections < j + k)
    (hpassed : ∀ j', j ≤ j' → j' < maxConnections →
      strnequ (reply.stat j').user user maxUserName = true →
        ¬TooLong (reply.stat j') ∧ SeemsTaken status i (reply.stat j')) (hb : s.secname = some b) :
    Prog.value (portAnswers primary status) (findInReply user i reply k j s) = none := by
  induction k generalizing j s b with
  | zero => omega
  | succ k ih =>
      rcases hj.lt_or_eq with hstored | rfl
      · by_cases hown : strnequ (reply.stat j).user user maxUserName = true
        · obtain ⟨hshort, htaken⟩ := hpassed j le_rfl hstored hown
          obtain ⟨s₁, a₁, hs₁, -, -, hvalue⟩ :=
            findInReply_taken primary status user (k := k) hstored hown hshort htaken hb
          rw [hvalue]
          exact ih (by omega) (by omega) (fun j' hj' => hpassed j' (by omega)) hs₁
        · rw [findInReply_other user hstored hown]
          exact ih (by omega) (by omega) (fun j' hj' => hpassed j' (by omega)) hb
      · rw [findInReply, if_pos le_rfl, value_undefined _ rfl]

/-- Where no status is so long, no reply is stored at the number `q`. -/
theorem findInReply_unset {q k j : ℕ} {s s' : Second} {b : CharArray maxConnectionName}
    (hshorter : ∀ j' < j + k, OwnAt user reply j' → ¬TooLong (reply.stat j') →
      (status (portName (reply.stat j'))).length ≤ q)
    (hk : j + k = (atoi reply.numconnections.val).toNat) (hb : s.secname = some b)
    (hunset : s.replies2 q = none)
    (hvalue : Prog.value (portAnswers primary status) (findInReply user i reply k j s) = some s') :
    s'.replies2 q = none := by
  induction k generalizing j s b with
  | zero => exact Option.some.inj hvalue ▸ hunset
  | succ k ih =>
      by_cases hstored : j < maxConnections
      swap
      · rw [findInReply, if_pos (not_lt.mp hstored), value_undefined _ rfl] at hvalue
        exact absurd hvalue (by simp)
      have hrest : ∀ j' < j + 1 + k, OwnAt user reply j' → ¬TooLong (reply.stat j') →
          (status (portName (reply.stat j'))).length ≤ q :=
        fun j' hj' => hshorter j' (by omega)
      by_cases hownname : strnequ (reply.stat j).user user maxUserName = true
      swap
      · rw [findInReply_other user hstored hownname] at hvalue
        exact ih hrest (by omega) hb hunset hvalue
      by_cases hlong : TooLong (reply.stat j)
      · rw [findInReply_tooLong user hstored hownname hlong] at hvalue
        exact Option.some.inj hvalue ▸ hunset
      obtain ⟨replies2, a, -, hentry, hround⟩ :=
        findInReply_own primary status user (i := i) (k := k) hstored hownname hlong hb
      have hunset' : replies2 q = none := by
        rw [hentry, List.getElem?_eq_none
          (hshorter j (by omega) ⟨hstored, by omega, hownname⟩ hlong), Option.none_or, hunset]
      rw [hround, Option.bind_eq_some_iff] at hvalue
      obtain ⟨taken, -, hvalue⟩ := hvalue
      cases taken with
      | true => exact ih hrest (by omega) rfl hunset' hvalue
      | false => exact Option.some.inj hvalue ▸ hunset'

/-- The search reads an entry that was never set. -/
theorem findInReply_unread {k j₀ j : ℕ} {s : Second} {b : CharArray maxConnectionName}
    (hj : j ≤ j₀) (hk : j₀ < j + k) (hown : OwnAt user reply j₀) (hshort : ¬TooLong (reply.stat j₀))
    (hfirst : ∀ j' < j₀, ¬OwnAt user reply j')
    (hne : status (portName (reply.stat j₀)) ≠ [])
    (hle : (status (portName (reply.stat j₀))).length ≤ i) (hb : s.secname = some b)
    (hunset : s.replies2 i = none) :
    Prog.value (portAnswers primary status) (findInReply user i reply k j s) = none := by
  induction k generalizing j with
  | zero => omega
  | succ k ih =>
      have hstored : j < maxConnections := hj.trans_lt hown.stored
      rcases hj.lt_or_eq with hlt | rfl
      · have hannounced := hown.announced
        rw [findInReply_other user hstored fun hownname =>
          hfirst j hlt ⟨hstored, by omega, hownname⟩]
        exact ih hlt (by omega)
      · obtain ⟨replies2, a, -, hentry, hround⟩ :=
          findInReply_own primary status user (i := i) (k := k) hstored hown.own hshort hb
        have hunset' : replies2 i = none := by
          rw [hentry, List.getElem?_eq_none hle, Option.none_or, hunset]
        obtain ⟨q, hq⟩ : ∃ q, (status (portName (reply.stat j))).length = q + 1 :=
          Nat.exists_eq_add_one.mpr (List.length_pos_iff.mpr hne)
        rw [hround, hq, secondTaken, if_neg Bool.false_ne_true, hunset']
        dsimp only
        rw [value_undefined _ rfl, Option.bind_none]

end Server

/-- Without a row to leave the server at, the search passes all rows of the user. -/
theorem passed_of_not_leaves {status : List Byte → List Reply} {user : List Byte} {i : ℕ}
    {reply : Reply} (h : ∀ j, ¬LeavesAt status user i reply j) {j : ℕ} (hown : OwnAt user reply j) :
    ¬TooLong (reply.stat j) ∧ SeemsTaken status i (reply.stat j) := by
  induction j using Nat.strong_induction_on with
  | _ j ih =>
      by_contra hstops
      rw [not_and_or, not_not] at hstops
      exact h j ⟨hown, hstops, fun j' hj' hown' => ih j' hj' hown'⟩

/-! ### The search of all servers -/

/-- The name in the buffer behind the server number `m`, where it was `base`:
another one is that of a row whose port seemed taken. -/
def Named (status : List Byte → List Reply) (user : List Byte) (replies : List Reply) (m : ℕ)
    (base : List Byte) (a : CharArray maxConnectionName) : Prop :=
  ((∀ i reply j, m < i → replies[i]? = some reply → ¬OwnAt user reply j) ∧ cstr a.val = base) ∨
    ∃ i reply j, m < i ∧ replies[i]? = some reply ∧ OwnAt user reply j ∧
      SeemsTaken status i (reply.stat j) ∧ cstr a.val = portName (reply.stat j)

theorem getElem?_concat_iff {α : Type} {xs : List α} {x y : α} {i : ℕ} :
    (xs ++ [x])[i]? = some y ↔ xs[i]? = some y ∨ (i = xs.length ∧ x = y) := by
  rcases lt_trichotomy i xs.length with hlt | rfl | hlt
  · rw [List.getElem?_append_left hlt]
    simp [hlt.ne]
  · simp
  · rw [List.getElem?_eq_none (by simp; omega), List.getElem?_eq_none hlt.le]
    simp [hlt.ne']

section Servers

variable {status : List Byte → List Reply} {user : List Byte} {replies : List Reply} {reply : Reply}

theorem Fresh.of_concat (h : Fresh status user (replies ++ [reply])) : Fresh status user replies :=
  fun i r j hr => h i r j (getElem?_concat_iff.mpr (.inl hr))

theorem EndsInside.of_concat (h : EndsInside status user (replies ++ [reply])) :
    EndsInside status user replies :=
  fun i r hr => h i r (getElem?_concat_iff.mpr (.inl hr))

/-- A server that is left is the last one so far. -/
theorem LastLeft.concat_self {j : ℕ} (h : LeavesAt status user replies.length reply j) :
    LastLeft status user (replies ++ [reply]) replies.length reply j := by
  refine ⟨getElem?_concat_iff.mpr (.inr ⟨rfl, rfl⟩), h, fun i r j' hi hr => ?_⟩
  have hlen := (List.getElem?_eq_some_iff.mp hr).1
  rw [List.length_append, List.length_singleton] at hlen
  omega

/-- A server that is not left changes nothing about the last one. -/
theorem lastLeft_concat_iff (h : ∀ j, ¬LeavesAt status user replies.length reply j) {i : ℕ}
    {r : Reply} {j : ℕ} :
    LastLeft status user (replies ++ [reply]) i r j ↔ LastLeft status user replies i r j := by
  constructor
  · rintro ⟨hserver, hleaves, hlast⟩
    rcases getElem?_concat_iff.mp hserver with hserver | ⟨rfl, rfl⟩
    · exact ⟨hserver, hleaves, fun i' r' j' hi hr =>
        hlast i' r' j' hi (getElem?_concat_iff.mpr (.inl hr))⟩
    · exact absurd hleaves (h j)
  · rintro ⟨hserver, hleaves, hlast⟩
    refine ⟨getElem?_concat_iff.mpr (.inl hserver), hleaves, fun i' r' j' hi hr => ?_⟩
    rcases getElem?_concat_iff.mp hr with hr | ⟨rfl, rfl⟩
    · exact hlast i' r' j' hi hr
    · exact h j'

variable (primary : List Reply) (b : CharArray maxConnectionName)

/-- The last server is searched last. -/
theorem findSecondFrom_concat (i : ℕ) (s : Second) :
    findSecondFrom user i (replies ++ [reply]) s = findSecondFrom user i replies s >>= fun s =>
      findInReply user (i + replies.length) reply (atoi reply.numconnections.val).toNat 0 s := by
  induction replies generalizing i s with
  | nil => exact Prog.bind_ret _
  | cons r replies ih =>
      have hlen : i + (r :: replies).length = i + 1 + replies.length := by
        rw [List.length_cons]
        omega
      have hbind := Prog.bind_bind (findInReply user i r (atoi r.numconnections.val).toNat 0 s)
        (findSecondFrom user (i + 1) replies) fun s =>
          findInReply user (i + 1 + replies.length) reply (atoi reply.numconnections.val).toNat 0 s
      rw [hlen, List.cons_append, findSecondFrom, findSecondFrom]
      refine Eq.trans ?_ hbind.symm
      exact congrArg _ (funext fun s => ih (i + 1) s)

/-- **What the search has done** after these servers: the last one that was left
decides the result, and the buffer has its name unless others were asked for. -/
def Searched (status : List Byte → List Reply) (user : List Byte) (replies : List Reply)
    (s : Second) (a : CharArray maxConnectionName) : Prop :=
  (PicksNone status user replies ∧ s.listnum = -1) ∨
    ∃ i reply j, LastLeft status user replies i reply j ∧ ¬TooLong (reply.stat j) ∧
      s.listnum ≠ -1 ∧ Named status user replies i (portName (reply.stat j)) a

/-- One more server, which is left. -/
theorem searched_left {j : ℕ} (hleaves : LeavesAt status user replies.length reply j)
    {s : Second} {a : CharArray maxConnectionName}
    (hlong : TooLong (reply.stat j) → s.listnum = -1)
    (hfree : ¬TooLong (reply.stat j) → s.listnum = j ∧ cstr a.val = portName (reply.stat j)) :
    Searched status user (replies ++ [reply]) s a := by
  have hlast := LastLeft.concat_self hleaves
  by_cases htoolong : TooLong (reply.stat j)
  · refine .inl ⟨fun i r j' h => ?_, hlong htoolong⟩
    obtain ⟨-, rfl, rfl⟩ := hlast.unique h
    exact htoolong
  · obtain ⟨hlistnum, hname⟩ := hfree htoolong
    refine .inr ⟨_, _, _, hlast, htoolong, by rw [hlistnum]; omega, .inl ⟨?_, hname⟩⟩
    intro i r j' hi hr
    have hlen := (List.getElem?_eq_some_iff.mp hr).1
    rw [List.length_append, List.length_singleton] at hlen
    omega

/-- One more server, whose rows of the user are all passed. -/
theorem Searched.through {s s' : Second} {a a' : CharArray maxConnectionName}
    (h : Searched status user replies s a)
    (hleft : ∀ j, ¬LeavesAt status user replies.length reply j) (hlistnum : s'.listnum = s.listnum)
    (hname : (a' = a ∧ ∀ j, ¬OwnAt user reply j) ∨ ∃ j, OwnAt user reply j ∧
      SeemsTaken status replies.length (reply.stat j) ∧ cstr a'.val = portName (reply.stat j)) :
    Searched status user (replies ++ [reply]) s' a' := by
  rcases h with ⟨hnone, hs⟩ | ⟨i, r, j, hlast, hshort, hne, hnamed⟩
  · exact .inl ⟨fun i r j h => hnone i r j ((lastLeft_concat_iff hleft).mp h), hlistnum.trans hs⟩
  refine .inr ⟨i, r, j, (lastLeft_concat_iff hleft).mpr hlast, hshort, hlistnum ▸ hne, ?_⟩
  have hi := (List.getElem?_eq_some_iff.mp hlast.server).1
  rcases hname with ⟨rfl, hnone⟩ | ⟨j', hrest⟩
  · rcases hnamed with ⟨hbehind, hname⟩ | ⟨i', r', j', hi', hr', hrest⟩
    · refine .inl ⟨fun i' r' j' hi' hr' hown => ?_, hname⟩
      rcases getElem?_concat_iff.mp hr' with hr' | ⟨rfl, rfl⟩
      · exact hbehind i' r' j' hi' hr' hown
      · exact hnone j' hown
    · exact .inr ⟨i', r', j', hi', getElem?_concat_iff.mpr (.inl hr'), hrest⟩
  · exact .inr ⟨_, _, j', hi, getElem?_concat_iff.mpr (.inr ⟨rfl, rfl⟩), hrest⟩

theorem findSecond_searched (hfresh : Fresh status user replies)
    (hends : EndsInside status user replies) :
    ∃ s a, Prog.value (portAnswers primary status) (findSecond user replies (some b)) = some s ∧
      s.secname = some a ∧ Searched status user replies s a := by
  induction replies using List.reverseRecOn with
  | nil => exact ⟨_, b, rfl, rfl, .inl ⟨fun i r j h => absurd h.server (by simp), rfl⟩⟩
  | append_singleton replies reply ih =>
      obtain ⟨s, a, hvalue, hs, hsearched⟩ := ih hfresh.of_concat hends.of_concat
      rw [findSecond] at hvalue ⊢
      rw [findSecondFrom_concat, Prog.value_bind, hvalue, Option.bind_some, Nat.zero_add]
      have hserver : (replies ++ [reply])[replies.length]? = some reply :=
        getElem?_concat_iff.mpr (.inr ⟨rfl, rfl⟩)
      by_cases hleft : ∃ j, LeavesAt status user replies.length reply j
      · obtain ⟨j, hleaves⟩ := hleft
        have hannounced := hleaves.own.announced
        obtain ⟨s', a', hs', hvalue', hlong, hfree⟩ := findInReply_leaves primary status user
          (k := (atoi reply.numconnections.val).toNat) (Nat.zero_le j) (by omega) hleaves
          (hfresh _ _ j hserver hleaves) hs
        exact ⟨s', a', hvalue', hs', searched_left hleaves hlong hfree⟩
      · rw [not_exists] at hleft
        have hcount := (hends _ _ hserver).resolve_right (not_exists.mpr hleft)
        have hstored (j' : ℕ) (hlt : j' < 0 + (atoi reply.numconnections.val).toNat)
            (hown : strnequ (reply.stat j').user user maxUserName = true) : OwnAt user reply j' :=
          ⟨by simp only [maxConnections] at hcount ⊢; omega, by omega, hown⟩
        obtain ⟨s', a', hs', hvalue', hlistnum, hname⟩ :=
          findInReply_through primary status user (by omega)
            (fun j' _ hlt hown => passed_of_not_leaves hleft (hstored j' hlt hown)) hs
        refine ⟨s', a', hvalue', hs', hsearched.through hleft hlistnum (hname.imp ?_ ?_)⟩
        · rintro ⟨heq, hnone⟩
          refine ⟨heq, fun j' hown => ?_⟩
          have hannounced := hown.announced
          exact hnone j' (Nat.zero_le _) (by omega) hown.own
        · rintro ⟨j', hlt, hown, hrest⟩
          exact ⟨j', hstored j' hlt hown, hrest⟩

/-- Where the search runs off the end of a reply it has no result. -/
theorem findSecond_outside (hfresh : Fresh status user replies)
    (hends : ¬EndsInside status user replies) :
    Prog.value (portAnswers primary status) (findSecond user replies (some b)) = none := by
  induction replies using List.reverseRecOn with
  | nil => exact absurd (fun i r hr => absurd hr (by simp)) hends
  | append_singleton replies reply ih =>
      rw [findSecond, findSecondFrom_concat, Prog.value_bind, Nat.zero_add]
      by_cases hends' : EndsInside status user replies
      · obtain ⟨s, a, hvalue, hs, -⟩ := findSecond_searched primary b hfresh.of_concat hends'
        rw [findSecond] at hvalue
        rw [hvalue, Option.bind_some]
        have hout : ¬(atoi reply.numconnections.val ≤ maxConnections ∨
            ∃ j, LeavesAt status user replies.length reply j) := by
          intro hin
          refine hends fun i r hr => ?_
          rcases getElem?_concat_iff.mp hr with hr | ⟨rfl, rfl⟩
          · exact hends' i r hr
          · exact hin
        rw [not_or, not_exists] at hout
        have hcount := hout.1
        refine findInReply_beyond primary status user (Nat.zero_le _) (by omega) ?_ hs
        intro j' _ hlt hown
        exact passed_of_not_leaves hout.2 ⟨hlt, by omega, hown⟩
      · have hnone := ih hfresh.of_concat hends'
        rw [findSecond] at hnone
        rw [hnone]
        rfl

/-- The search keeps a buffer, and stores no reply at a number that no status has. -/
theorem findSecond_unset {q : ℕ} {s : Second}
    (hshorter : ∀ (i : ℕ) (reply : Reply) (j : ℕ), replies[i]? = some reply →
      OwnAt user reply j → ¬TooLong (reply.stat j) → (status (portName (reply.stat j))).length ≤ q)
    (hfresh : Fresh status user replies)
    (hvalue : Prog.value (portAnswers primary status) (findSecond user replies (some b)) = some s) :
    s.replies2 q = none := by
  induction replies using List.reverseRecOn generalizing s with
  | nil => exact Option.some.inj hvalue ▸ rfl
  | append_singleton replies reply ih =>
      have hends : EndsInside status user replies := by
        by_contra hends
        have hnone := findSecond_outside primary b hfresh.of_concat hends
        rw [findSecond] at hnone
        rw [findSecond, findSecondFrom_concat, Prog.value_bind, hnone] at hvalue
        exact absurd hvalue (by simp)
      obtain ⟨s₁, a₁, hvalue₁, hs₁, -⟩ := findSecond_searched primary b hfresh.of_concat hends
      have hunset := ih (fun i r j hr => hshorter i r j (getElem?_concat_iff.mpr (.inl hr)))
        hfresh.of_concat hvalue₁
      rw [findSecond] at hvalue₁
      rw [findSecond, findSecondFrom_concat, Prog.value_bind, hvalue₁, Option.bind_some] at hvalue
      exact findInReply_unset primary status user (fun j' _ => hshorter _ _ j'
        (getElem?_concat_iff.mpr (.inr ⟨rfl, rfl⟩))) (Nat.zero_add _) hs₁ hunset hvalue

/-- Where a reply is missing and no earlier one is in its place, there is no result. -/
theorem findSecond_unread (hleftover : NoLeftover status user replies)
    (hfresh : ¬Fresh status user replies) :
    Prog.value (portAnswers primary status) (findSecond user replies (some b)) = none := by
  induction replies using List.reverseRecOn with
  | nil => exact absurd (fun i r j hr => absurd hr (by simp)) hfresh
  | append_singleton replies reply ih =>
      have hleftover' : NoLeftover status user replies := by
        intro i r j hr hleaves hshort
        refine (hleftover i r j (getElem?_concat_iff.mpr (.inl hr)) hleaves hshort).imp_right ?_
        exact fun h => h.imp_right fun ⟨hfirst, hshorter⟩ => ⟨hfirst, fun i' r' j' hi' hr' =>
          hshorter i' r' j' hi' (getElem?_concat_iff.mpr (.inl hr'))⟩
      by_cases hbefore : Fresh status user replies
      swap
      · have hnone := ih hleftover' hbefore
        rw [findSecond] at hnone
        rw [findSecond, findSecondFrom_concat, Prog.value_bind, hnone]
        rfl
      have hserver : (replies ++ [reply])[replies.length]? = some reply :=
        getElem?_concat_iff.mpr (.inr ⟨rfl, rfl⟩)
      -- the missing reply is one for the last server
      obtain ⟨j, hleaves, hshort, hne, hle⟩ : ∃ j, LeavesAt status user replies.length reply j ∧
          ¬TooLong (reply.stat j) ∧ status (portName (reply.stat j)) ≠ [] ∧
          (status (portName (reply.stat j))).length ≤ replies.length := by
        by_contra hnone
        refine hfresh fun i r j hr hleaves hshort => ?_
        rcases getElem?_concat_iff.mp hr with hr | ⟨rfl, rfl⟩
        · exact hbefore i r j hr hleaves hshort
        · by_contra hmissing
          rw [not_or, not_lt] at hmissing
          exact hnone ⟨j, hleaves, hshort, hmissing⟩
      obtain ⟨hfirst, hshorter⟩ := ((hleftover _ _ j hserver hleaves hshort).resolve_left
        hne).resolve_left (not_lt.mpr hle)
      rw [findSecond, findSecondFrom_concat, Prog.value_bind, Nat.zero_add]
      by_cases hends : EndsInside status user replies
      swap
      · have hnone := findSecond_outside primary b hbefore hends
        rw [findSecond] at hnone
        rw [hnone]
        rfl
      obtain ⟨s, a, hvalue, hs, -⟩ := findSecond_searched primary b hbefore hends
      have hunset := findSecond_unset primary b (fun i r j' hr => hshorter i r j'
        (List.getElem?_eq_some_iff.mp hr).1 (getElem?_concat_iff.mpr (.inl hr))) hbefore hvalue
      rw [findSecond] at hvalue
      rw [hvalue, Option.bind_some]
      have hannounced := hleaves.own.announced
      exact findInReply_unread primary status user (Nat.zero_le j) (by omega) hleaves.own hshort
        hfirst hne hle hs hunset

end Servers

/-! ### When the search is right -/

section Selection

variable (status : List Byte → List Reply) (user : List Byte) (replies : List Reply)
  (b : CharArray maxConnectionName)

/-- The search succeeds exactly if there is a suitable row, and then its buffer
holds the second name of one. -/
def Selects : Prop :=
  ∃ s, Prog.value (portAnswers replies status) (findSecond user replies (some b)) = some s ∧
    (s.listnum ≠ -1 ↔ ∃ row, Announced replies row ∧ Suitable status user row) ∧
    (s.listnum ≠ -1 → ∃ row a, Announced replies row ∧ Suitable status user row ∧
      s.secname = some a ∧ cstr a.val = portName row)

theorem selects_of_fresh (hfresh : Fresh status user replies) : Selects status user replies b ↔
    EndsInside status user replies ∧
      (PicksSuitable status user replies ∨
        (PicksNone status user replies ∧ ∀ row, Announced replies row →
          ¬Suitable status user row)) := by
  rw [Selects]
  by_cases hends : EndsInside status user replies
  · rw [and_iff_right hends]
    obtain ⟨s, a, hvalue, hs, hsearched⟩ := findSecond_searched replies b hfresh hends
    simp only [hvalue, Option.some.injEq, exists_eq_left']
    rcases hsearched with ⟨hnone, hlistnum⟩ | ⟨i, reply, j, hlast, hshort, hlistnum, hnamed⟩
    · -- nothing is picked, so no row may be suitable
      have hpicks : ¬PicksSuitable status user replies := by
        rintro ⟨i, reply, j, hlast, hshort, -⟩
        exact hshort (hnone i reply j hlast)
      have hfail : ¬s.listnum ≠ -1 := not_not.mpr hlistnum
      rw [or_iff_right hpicks, and_iff_right hnone, iff_false_left hfail, not_exists,
        and_iff_left fun h => absurd h hfail]
      exact forall_congr' fun row => not_and
    · have hpicks : ¬PicksNone status user replies := fun hnone => hshort (hnone i reply j hlast)
      rw [or_iff_left fun h => hpicks h.1]
      constructor
      · rintro ⟨-, hsec⟩
        obtain ⟨row, a', hrow, hsuit, ha', hname⟩ := hsec hlistnum
        obtain rfl : a = a' := Option.some.inj (hs.symm.trans ha')
        rcases hnamed with ⟨hbehind, hbase⟩ | ⟨i', reply', j', -, -, -, htaken, htook⟩
        · exact ⟨i, reply, j, hlast, hshort, hbehind, row, hrow, hsuit, hname.symm.trans hbase⟩
        · exact absurd hsuit (not_suitable_of_taken htaken (hname.symm.trans htook))
      · rintro ⟨i', reply', j', hlast', -, hbehind, row, hrow, hsuit, hname⟩
        obtain ⟨rfl, rfl, rfl⟩ := hlast.unique hlast'
        refine ⟨⟨fun _ => ⟨row, hrow, hsuit⟩, fun _ => hlistnum⟩,
          fun _ => ⟨row, a, hrow, hsuit, hs, ?_⟩⟩
        rcases hnamed with ⟨-, hbase⟩ | ⟨i', reply', j', hi', hr', hown, -⟩
        · exact hbase.trans hname.symm
        · exact absurd hown (hbehind i' reply' j' hi' hr')
  · rw [findSecond_outside replies b hfresh hends]
    simp [hends]

/-- **The choice of a second port.** The search is right if it finds a reply for
each server whose port seems free, the last server that is left is left at a
suitable row and the user has no row behind it, or otherwise nothing is picked and
no row is suitable. Nor is it right anywhere else, except where a reply that is
missing is one that an earlier query has left. -/
theorem selects_iff :
    (Picks status user replies → Selects status user replies b) ∧
    (NoLeftover status user replies → Selects status user replies b →
      Picks status user replies) := by
  constructor
  · rintro ⟨hfresh, hpicks⟩
    exact (selects_of_fresh status user replies b hfresh).mpr hpicks
  · intro hleftover hselects
    by_cases hfresh : Fresh status user replies
    · exact ⟨hfresh, (selects_of_fresh status user replies b hfresh).mp hselects⟩
    · obtain ⟨s, hvalue, -⟩ := hselects
      rw [findSecond_unread replies b hleftover hfresh] at hvalue
      exact absurd hvalue (by simp)

/-- Ann holds `argo` on the server `xinu`; the server `helios` has no row for her. -/
def annsArgo : List Reply :=
  [statusReply "xinu" [⟨text "argo", text "mips", 1, text "ann", text "00:05:00"⟩],
    statusReply "helios" []]

/-- The status of `argo2`, free on `xinu`. -/
def freeArgo2 : List Reply :=
  [statusReply "xinu" [⟨text "argo2", text "uart", 0, [], []⟩], statusReply "helios" []]

/-- Both servers answer for `argo2`, which is free, and it is picked. -/
theorem selects_argo2 : Selects (fun _ => freeArgo2) (text "ann") annsArgo (CharArray.zero _) := by
  have hfresh : Fresh (fun _ => freeArgo2) (text "ann") annsArgo := fun i _ _ hr _ _ =>
    .inr (List.getElem?_eq_some_iff.mp hr).1
  have hcounts : ∀ reply ∈ annsArgo, atoi reply.numconnections.val ≤ maxConnections := by decide
  have hempty : atoi (statusReply "helios" []).numconnections.val = 0 := by decide
  have hnone : ∀ i reply j, 0 < i → annsArgo[i]? = some reply → ¬OwnAt (text "ann") reply j := by
    intro i reply j hi hr hown
    have hannounced := hown.announced
    match i with
    | 1 =>
        obtain rfl : statusReply "helios" [] = reply := Option.some.inj hr
        omega
    | i + 2 => exact absurd hr (by simp [annsArgo])
  let argo : Reply :=
    statusReply "xinu" [⟨text "argo", text "mips", 1, text "ann", text "00:05:00"⟩]
  have hown : OwnAt (text "ann") argo 0 := ⟨by decide, by decide, by decide +kernel⟩
  have hshort : ¬TooLong (argo.stat 0) := by
    rw [TooLong]
    decide +kernel
  have hleaves : LeavesAt (fun _ => freeArgo2) (text "ann") 0 argo 0 := by
    refine ⟨hown, .inr ?_, fun j' hj' => absurd hj' (Nat.not_lt_zero j')⟩
    rintro ⟨reply2, hreply2, -, hactive⟩
    obtain rfl := Option.some.inj hreply2
    exact absurd hactive (by decide)
  have hsuit : Suitable (fun _ => freeArgo2) (text "ann") (argo.stat 0) := by
    refine ⟨by decide, hown.own, by decide +kernel, ?_⟩
    rintro row ⟨reply, hreply, j, hj, rfl⟩
    rcases List.mem_cons.mp hreply with rfl | hreply
    · obtain rfl : j = 0 := by
        have hone : atoi (statusReply "xinu"
          [⟨text "argo2", text "uart", 0, [], []⟩]).numconnections.val = 1 := by decide
        omega
      decide
    · obtain rfl := List.mem_singleton.mp hreply
      omega
  exact (selects_iff _ _ _ _).1 ⟨hfresh,
    fun i reply hr => .inl (hcounts reply (List.mem_of_getElem? hr)),
      .inl ⟨0, argo, 0, ⟨rfl, hleaves, fun i r j hi hr hleft => hnone i r j hi hr hleft.own⟩, hshort,
        hnone, argo.stat 0, ⟨argo, List.mem_cons_self, 0, hown.announced, rfl⟩, hsuit, rfl⟩⟩

/-- The status of `argo2`, held by bob on `xinu`; `helios` answers first. -/
def bobsArgo2 : List Reply :=
  [statusReply "helios" [],
    statusReply "xinu" [⟨text "argo2", text "uart", 1, text "bob", text "00:05:00"⟩]]

/-- The second port of `argo` is taken for a free one. -/
theorem selects_taken :
    ¬Selects (fun _ => bobsArgo2) (text "ann") annsArgo (CharArray.zero _) := by
  rintro ⟨s, hs, -, hsec⟩
  have hvalue : (Prog.value (portAnswers annsArgo fun _ => bobsArgo2)
      (findSecond (text "ann") annsArgo (some (CharArray.zero _)))).map Second.listnum =
        some 0 := by
    decide +kernel
  rw [hs, Option.map_some, Option.some.injEq] at hvalue
  obtain ⟨row, a, -, hsuit, -⟩ := hsec (by simp [hvalue])
  have hactive := hsuit.idle _ ⟨_, List.mem_cons_of_mem _ List.mem_cons_self, 0, by decide, rfl⟩
  exact absurd hactive (by decide)

end Selection

end XinuConsole.MakeConnection
