import XinuConsole.Lib.Slots
import XinuConsole.Lib.Words
import XinuConsole.Cserver

/-!
`getservers` of `lib/obtainStatus.c`: the list of servers in the environment.

The string is copied into a buffer, which is cut up there with NULs, and the
array is filled with pointers into it. A pointer is an offset of the buffer;
a store outside the array has no result.
-/

namespace XinuConsole.ObtainStatus

open Lib

@[simp] def maxServers : ℕ := 128

/-- An element of the array: a null pointer, the argument `host`, or a pointer
into the copy of the string. -/
inductive ServerPtr
  | null
  | host
  | copy (p : ℕ)
  deriving DecidableEq

abbrev Servers := Slots ServerPtr maxServers

/-- `index( p, c )`: the first `c` of the string at `p`. -/
def index (buf : List Byte) (p : ℕ) (c : Byte) : Option ℕ :=
  let s := cstr (buf.drop p)
  if c ∈ s then some (p + s.idxOf c) else none

/-- `while( *sb == ' ' ) sb++`. -/
def skipSpaces (buf : List Byte) (sb : ℕ) : ℕ :=
  sb + ((buf.drop sb).takeWhile (· = 32)).length

/-- The body of the loop: the word at `copy` is cut off, and `sb` points to the
next one. -/
def cutWord (buf : List Byte) (copy : ℕ) : List Byte × Option ℕ :=
  match index buf copy 32 with
  | some sb =>
    let buf := buf.set sb 0
    (buf, some (skipSpaces buf (sb + 1)))
  | none => (buf, none)

/-- The loop at its counter `i`, after which the break leaves it `room` more
rounds. At its head `copy` and `sb` are the same pointer. -/
def serversLoop : ℕ → ℕ → List Byte → Option ℕ → Servers → Option (ℕ × List Byte × Servers)
  | room, i, buf, sb, servers =>
      match sb with
      | none => some (i, buf, servers)
      | some copy =>
        if buf.getD copy 0 = 0 then some (i, buf, servers)
        else do
          let servers ← servers.store i (.copy copy)
          let (buf, sb) := cutWord buf copy
          match room with
          | 0 => some (i, buf, servers)
          | room + 1 => serversLoop room (i + 1) buf sb servers

/-- `getservers`: the result, the buffer and the array. `env` is the
environment variable, if it is set. -/
def getservers (env host : Option (List Byte)) (servers : Servers) :
    Option (ℕ × List Byte × Servers) :=
  let named := match host with
    | none => false
    | some h => h.headD 0 ≠ 0
  if named then do
    let servers ← servers.store 0 .host
    some (1, [], servers)
  else
    match env with
    | none => some (0, [], servers)
    | some sb => do
      let copy := (cstr sb).dropWhile (· = 32) ++ [0]
      let (i, buf, servers) ← serversLoop (maxServers - 1) 0 copy (some 0) servers
      let servers ← servers.store i .null
      some (i, buf, servers)

/-! ### One word -/

/-- The string `w` and its terminator lie at `p`. -/
def PointsTo (buf : List Byte) (p : ℕ) (w : List Byte) : Prop := w ++ [0] <+: buf.drop p

theorem PointsTo.cstr {buf : List Byte} {p : ℕ} {w : List Byte} (h : PointsTo buf p w)
    (hw : (0 : Byte) ∉ w) : cstr (buf.drop p) = w := by
  obtain ⟨t, ht⟩ := h
  rw [← ht, List.append_assoc]
  exact cstr_append_zero hw t

theorem pointsTo_of_prefix {pre w buf : List Byte} (h : pre ++ w ++ [0] <+: buf) :
    PointsTo buf pre.length w := by
  obtain ⟨t, rfl⟩ := h
  refine ⟨t, ?_⟩
  simp only [List.append_assoc, List.drop_left]

/-- A round does not touch what lies in front of its word. -/
theorem cutWord_front (pre rest : List Byte) :
    pre <+: (cutWord (pre ++ rest ++ [0]) pre.length).1 := by
  rw [cutWord, index]
  dsimp only
  split
  · next sb hsb =>
      obtain ⟨-, hsb⟩ := Option.ite_none_right_eq_some.mp hsb
      obtain rfl := Option.some.inj hsb
      rw [List.append_assoc, List.set_append_right _ _ (Nat.le_add_right _ _)]
      exact List.prefix_append _ _
  · rw [List.append_assoc]
    exact List.prefix_append _ _

theorem byte_ne_zero (pre : List Byte) {rest : List Byte} (h0 : (0 : Byte) ∉ rest)
    (hne : rest ≠ []) : ¬(pre ++ rest ++ [0]).getD pre.length 0 = 0 := by
  obtain ⟨b, rest, rfl⟩ := List.exists_cons_of_ne_nil hne
  intro h
  apply h0
  simp at h
  simp [h]

theorem takeWhile_blank_terminated (s : List Byte) :
    (s ++ [0]).takeWhile (· = 32) = s.takeWhile (· = 32) := by
  induction s with
  | nil => rfl
  | cons b s ih =>
      rw [List.cons_append, List.takeWhile_cons, List.takeWhile_cons, ih]

section Cut

variable {pre w : List Byte} (h0 : (0 : Byte) ∉ w) (hw : (32 : Byte) ∉ w)

include h0 hw

/-- The last word of the string stays as it is. -/
theorem cutWord_last : cutWord (pre ++ w ++ [0]) pre.length = (pre ++ w ++ [0], none) := by
  have hindex : index (pre ++ w ++ [0]) pre.length 32 = none := by
    rw [index, List.append_assoc, List.drop_left, cstr_append_zero h0]
    exact if_neg hw
  rw [cutWord, hindex]

/-- A word with a blank behind it is terminated, and the blanks behind it are
skipped. -/
theorem cutWord_blank {rest : List Byte} (hr : (0 : Byte) ∉ rest) :
    cutWord (pre ++ (w ++ 32 :: rest) ++ [0]) pre.length =
      (let front := pre ++ w ++ 0 :: rest.takeWhile (· = 32)
      (front ++ rest.dropWhile (· = 32) ++ [0], some front.length)) := by
  have hstr : (0 : Byte) ∉ w ++ 32 :: rest := by
    simp [h0, hr]
  have hidx : (w ++ 32 :: rest).idxOf 32 = w.length := by
    rw [List.idxOf_append_of_notMem hw, List.idxOf_cons_self, Nat.add_zero]
  have hindex : index (pre ++ (w ++ 32 :: rest) ++ [0]) pre.length 32 =
      some (pre.length + w.length) := by
    rw [index, List.append_assoc, List.drop_left, cstr_append_zero hstr, hidx, if_pos (by simp)]
  have hset : (pre ++ (w ++ 32 :: rest) ++ [0]).set (pre.length + w.length) 0 =
      pre ++ w ++ 0 :: rest ++ [0] := by
    rw [← List.append_assoc, ← List.length_append, List.append_assoc,
      List.set_append_right _ _ le_rfl]
    simp
  have hdrop : (pre ++ w ++ 0 :: rest ++ [0]).drop (pre.length + w.length + 1) = rest ++ [0] := by
    have hsplit : pre ++ w ++ 0 :: rest ++ [0] = (pre ++ w ++ [0]) ++ (rest ++ [0]) := by simp
    have hlen : pre.length + w.length + 1 = (pre ++ w ++ [0]).length := by simp [Nat.add_assoc]
    rw [hsplit, hlen, List.drop_left]
  have hfront : pre ++ w ++ 0 :: rest.takeWhile (· = 32) ++ rest.dropWhile (· = 32) =
      pre ++ w ++ 0 :: rest := by
    rw [List.append_assoc, List.cons_append, List.takeWhile_append_dropWhile]
  rw [cutWord, hindex]
  dsimp only
  rw [hset, skipSpaces, hdrop, takeWhile_blank_terminated, hfront]
  simp only [List.length_append, List.length_cons]
  rw [show pre.length + w.length + 1 + (rest.takeWhile (· = 32)).length =
    pre.length + w.length + ((rest.takeWhile (· = 32)).length + 1) by omega]

end Cut

/-! ### The loop -/

section Rounds

variable (room i : ℕ) (buf : List Byte) (servers : Servers)

theorem serversLoop_none : serversLoop room i buf none servers = some (i, buf, servers) := by
  cases room <;> rfl

theorem serversLoop_end {copy : ℕ} (h : buf.getD copy 0 = 0) :
    serversLoop room i buf (some copy) servers = some (i, buf, servers) := by
  cases room <;> exact if_pos h

variable {servers} in
/-- The round on which the array has room for no other. -/
theorem serversLoop_break {copy : ℕ} {servers' : Servers} (h : ¬buf.getD copy 0 = 0)
    (hstore : servers.store i (.copy copy) = some servers') :
    serversLoop 0 i buf (some copy) servers = some (i, (cutWord buf copy).1, servers') := by
  rw [serversLoop.eq_def]
  dsimp only
  rw [if_neg h, hstore]
  rfl

variable {servers} in
theorem serversLoop_round {copy : ℕ} {servers' : Servers} (h : ¬buf.getD copy 0 = 0)
    (hstore : servers.store i (.copy copy) = some servers') :
    serversLoop (room + 1) i buf (some copy) servers =
      serversLoop room (i + 1) (cutWord buf copy).1 (cutWord buf copy).2 servers' := by
  rw [serversLoop.eq_def]
  dsimp only
  rw [if_neg h, hstore]
  rfl

end Rounds

/-- What the loop makes of the string `rest` behind `pre`: the words of it are
counted as far as there is room, and the array points to them in order. -/
structure Split (room i : ℕ) (pre rest : List Byte) (servers : Servers)
    (r : ℕ × List Byte × Servers) : Prop where
  count : r.1 = i + min room (words 32 rest).length
  front : pre <+: r.2.1
  kept : ∀ j, j < i → r.2.2.load j = servers.load j
  pointers : ∀ j w, j < room → (words 32 rest)[j]? = some w →
    ∃ p, r.2.2.load (i + j) = some (.copy p) ∧ PointsTo r.2.1 p w

/-- The word that a round stores is the first one, and the rounds behind it see to the rest. -/
theorem Split.cons {room i : ℕ} {pre front w tail rest : List Byte} {servers servers' : Servers}
    {r : ℕ × List Byte × Servers} (hfront : pre ++ w ++ [0] <+: front)
    (hself : servers'.load i = some (.copy pre.length))
    (hother : ∀ j, j ≠ i → servers'.load j = servers.load j)
    (hwords : words 32 rest = w :: words 32 tail)
    (h : Split room (i + 1) front tail servers' r) : Split (room + 1) i pre rest servers r := by
  refine ⟨?_, ?_, ?_, ?_⟩
  · rw [h.count, hwords, List.length_cons]
    omega
  · have hpre : pre <+: pre ++ w ++ [0] := by simp
    exact hpre.trans (hfront.trans h.front)
  · intro j hj
    rw [h.kept j (by omega), hother j (by omega)]
  · intro j w' hj hw'
    rw [hwords] at hw'
    cases j with
    | zero =>
        rw [List.getElem?_cons_zero, Option.some.injEq] at hw'
        subst hw'
        refine ⟨pre.length, ?_, pointsTo_of_prefix (hfront.trans h.front)⟩
        rw [Nat.add_zero, h.kept i (by omega), hself]
    | succ j =>
        rw [List.getElem?_cons_succ] at hw'
        obtain ⟨p, hp, hpoints⟩ := h.pointers j w' (by omega) hw'
        exact ⟨p, by rwa [show i + (j + 1) = i + 1 + j by omega], hpoints⟩

theorem serversLoop_split (room i : ℕ) (hi : room + i < maxServers) (pre : List Byte)
    {rest : List Byte} (h0 : (0 : Byte) ∉ rest) (hhead : rest.head? ≠ some 32)
    (servers : Servers) :
    ∃ r, serversLoop room i (pre ++ rest ++ [0]) (some pre.length) servers = some r ∧
      Split room i pre rest servers r := by
  induction room generalizing i pre rest servers with
  | zero =>
      by_cases hne : rest = []
      · subst hne
        exact ⟨_, serversLoop_end _ _ _ _ (by simp), by simp, by simp, fun _ _ => rfl, by simp⟩
      obtain ⟨servers', hstore, -, hother⟩ :=
        servers.store_of_lt (show i < maxServers by omega) (.copy pre.length)
      refine ⟨_, serversLoop_break _ _ (byte_ne_zero pre h0 hne) hstore, ?_, ?_, ?_, ?_⟩
      · simp
      · exact cutWord_front pre rest
      · exact fun j hj => hother j (by omega)
      · exact fun j w hj => absurd hj (Nat.not_lt_zero j)
  | succ room ih =>
      by_cases hne : rest = []
      · subst hne
        refine ⟨_, serversLoop_end _ _ _ _ (by simp), ?_, ?_, fun _ _ => rfl, ?_⟩
        · simp
        · simp
        · simp
      obtain ⟨servers', hstore, hself, hother⟩ :=
        servers.store_of_lt (show i < maxServers by omega) (.copy pre.length)
      have hbyte := byte_ne_zero pre h0 hne
      rw [serversLoop_round _ _ _ hbyte hstore]
      rcases words_cases hne hhead with ⟨hw, hwords⟩ | ⟨w, tail, rfl, hwne, hw, hwords⟩
      · rw [cutWord_last h0 hw, serversLoop_none]
        refine ⟨_, rfl, ?_⟩
        have hcons : words 32 rest = rest :: words 32 [] := by rw [hwords, words_nil]
        apply Split.cons List.prefix_rfl hself hother hcons
        refine ⟨?_, List.prefix_rfl, fun _ _ => rfl, ?_⟩
        · simp
        · simp
      · have h0w : (0 : Byte) ∉ w := fun h => h0 (List.mem_append_left _ h)
        have h0t : (0 : Byte) ∉ tail := fun h =>
          h0 (List.mem_append_right _ (List.mem_cons_of_mem _ h))
        rw [cutWord_blank h0w hw h0t]
        dsimp only
        have h0rest : (0 : Byte) ∉ tail.dropWhile (· = 32) :=
          fun h => h0t ((List.dropWhile_suffix _).mem h)
        obtain ⟨r, hr, hsplit⟩ := ih (i + 1) (by omega) (pre ++ w ++ 0 :: tail.takeWhile (· = 32))
          h0rest (head?_dropWhile_sep tail) servers'
        have hterm : pre ++ w ++ [0] <+: pre ++ w ++ 0 :: tail.takeWhile (· = 32) :=
          ⟨tail.takeWhile (· = 32), by simp⟩
        exact ⟨r, hr, Split.cons hterm hself hother (by rw [hwords, words_dropWhile]) hsplit⟩

/-! ### The list of servers -/

/-- A null pointer and an empty string are the same to `getservers`. -/
theorem getservers_unnamed {env host : Option (List Byte)} (hhost : ∀ h ∈ host, cstr h = [])
    (servers : Servers) : getservers env host servers = getservers env none servers := by
  cases host with
  | none => rfl
  | some name =>
      have hempty : name.headD 0 = 0 := (headD_eq_zero_iff name).mpr (hhost name rfl)
      cases name with
      | nil => rfl
      | cons b name =>
          obtain rfl : b = 0 := hempty
          rfl

/-- **The server list.** Whatever the environment holds, the array gets pointers
to its words, as many as there is room for, and a null pointer behind them. No
store is outside the array. No host is named by a null pointer or an empty string,
which is what the programs pass. -/
theorem getservers_words (sb : List Byte) (servers : Servers) :
    ∃ k buf servers',
      (∀ host : Option (List Byte), (∀ h ∈ host, cstr h = []) →
        getservers (some sb) host servers = some (k, buf, servers')) ∧
      k = min (maxServers - 1) (words 32 (cstr sb)).length ∧
      (∀ j < k, ∃ p w, servers'.load j = some (.copy p) ∧ PointsTo buf p w ∧
        (words 32 (cstr sb))[j]? = some w ∧ cstr (buf.drop p) = w ∧ (32 : Byte) ∉ w) ∧
      servers'.load k = some .null := by
  have h0 : (0 : Byte) ∉ (cstr sb).dropWhile (· = 32) := fun h =>
    zero_not_mem_cstr sb ((List.dropWhile_suffix _).mem h)
  obtain ⟨⟨k, buf, servers₁⟩, hloop, hsplit⟩ := serversLoop_split (maxServers - 1) 0 (by simp) []
    h0 (head?_dropWhile_sep (cstr sb)) servers
  have hcount : k = min (maxServers - 1) (words 32 (cstr sb)).length := by
    rw [← words_dropWhile]
    exact hsplit.count.trans (Nat.zero_add _)
  obtain ⟨servers₂, hstore, hnull, hother⟩ :=
    servers₁.store_of_lt (show k < maxServers by rw [hcount]; simp) .null
  refine ⟨k, buf, servers₂, ?_, hcount, ?_, hnull⟩
  · intro host hhost
    rw [getservers_unnamed hhost, getservers, if_neg (by simp)]
    show ((serversLoop (maxServers - 1) 0 _ (some 0) servers).bind _) = _
    rw [List.nil_append, List.length_nil] at hloop
    rw [hloop, Option.bind_some]
    dsimp only
    rw [hstore]
    rfl
  · intro j hj
    have hlt : j < (words 32 (cstr sb)).length := by omega
    have hw := List.getElem?_eq_getElem hlt
    have hword := mem_words (List.mem_of_getElem? hw)
    obtain ⟨p, hp, hpoints⟩ := hsplit.pointers j _ (by omega) (by rwa [words_dropWhile])
    refine ⟨p, _, ?_, hpoints, hw, hpoints.cstr ?_, hword.2.1⟩
    · rw [hother j (by omega), ← hp, Nat.zero_add]
    · exact fun h => zero_not_mem_cstr sb (hword.2.2.subset h)

end XinuConsole.ObtainStatus
