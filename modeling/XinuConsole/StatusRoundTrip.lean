import XinuConsole.Consoled.Status
import XinuConsole.Support

/-!
The status reply from the daemon's table to the client's memory.

The decoder limits its loop by `MAXNCONNECTIONS`, the width of the count field,
and not by `MAXCONNECTIONS`. What the daemon sends therefore comes back whole
exactly when at most four rows match, and the count that consumers read from
the header stays what the sender wrote.
-/

namespace XinuConsole

open Lib ConnectUtils Consoled

/-- The elapsed time of every held row fits the time member of a record. -/
def ElapsedInRange (config : List Condata) (now : ℤ) : Prop :=
  ∀ row ∈ config, row.conpid ≠ badPid → 0 ≤ now - row.contime ∧ now - row.contime ≤ 359999999

/-- Decoding the daemon's status reply succeeds and gives the count and every
matching row back, whatever the memory involved held before. -/
def RoundTrip (config : List Condata) (req : Request) (hostname : List Byte) (now : ℤ) : Prop :=
  ∀ (junk prior : Reply) (stack : Mem),
    let sent := status junk hostname config req now
    let got := recvfromReply stack (some (sendtoReply sent.1 sent.2)) prior
    got.ret = sizeofReply ∧
      atoi got.reply.numconnections.val = (matching config req).length ∧
      ∀ i (h : i < (matching config req).length),
        got.reply.stat i = rowRecord now (matching config req)[i]

/-- The time is the only member of a record that the table does not bound. -/
theorem wellFormed_of_time {now : ℤ} {row : Condata}
    (htime : row.conpid ≠ badPid →
      (renderTime (int32 (now - row.contime))).length < maxTimeLength) :
    WellFormed (rowRecord now row) := by
  by_cases hp : row.conpid = badPid
  · refine ⟨row.conname_str, row.conclass_str, ?_, ?_, ?_⟩ <;> simp [rowRecord, hp]
  · refine ⟨row.conname_str, row.conclass_str, ?_, ?_, ?_⟩ <;> simp only [rowRecord, hp, if_false]
    · exact ⟨zero_not_mem_cstr _, row.userName_length_lt⟩
    · exact ⟨zero_not_mem_renderTime _, htime hp⟩
    · exact Or.inr trivial

theorem wellFormed_rowRecord {config : List Condata} {now : ℤ} (h : ElapsedInRange config now)
    {row : Condata} (hrow : row ∈ config) : WellFormed (rowRecord now row) := by
  apply wellFormed_of_time
  intro hp
  obtain ⟨h₀, h₁⟩ := h row hrow hp
  obtain ⟨e, he⟩ := Int.eq_ofNat_of_zero_le h₀
  rw [he] at h₁ ⊢
  rw [int32_of_range (by omega) (by omega)]
  exact renderTime_length_lt (by omega)

/-- Three digits and a terminator fill the count field. -/
theorem atoi_store_count (a : CharArray maxNConnections) {n : ℕ} (hn : n < 1000) :
    atoi (((a.store (fmtD n ++ [0])).set (maxNConnections - 1) 0).set (maxNConnections - 1) 0).val
      = n := by
  have hlen : (decimal n).length ≤ 3 := decimal_length_le (by norm_num) (by omega)
  obtain ⟨rest, hrest⟩ : ∃ rest, (((a.store (fmtD n ++ [0])).set (maxNConnections - 1) 0).set
      (maxNConnections - 1) 0).val = decimal n ++ 0 :: rest := by
    simp only [CharArray.store, CharArray.set, fmtD_natCast, List.set_set, maxNConnections,
      maxConnections]
    rw [List.take_of_length_le (by simp; omega), List.append_assoc,
      List.set_append_right _ _ (by omega)]
    rcases Nat.lt_or_ge (decimal n).length 3 with h | h
    · obtain ⟨k, hk⟩ : ∃ k, 3 - (decimal n).length = k + 1 := ⟨2 - (decimal n).length, by omega⟩
      exact ⟨_, by rw [show 512 / 1000 * 3 + 3 + 1 - 1 - (decimal n).length = k + 1 from hk,
        List.singleton_append, List.set_cons_succ]⟩
    · exact ⟨_, by rw [show 512 / 1000 * 3 + 3 + 1 - 1 - (decimal n).length = 0 by omega,
        List.singleton_append, List.set_cons_zero]⟩
  rw [hrest]
  exact atoi_decimal n rfl

/-- What the client has after decoding the daemon's status reply. -/
theorem recvfromReply_status (config : List Condata) (req : Request) (hostname : List Byte)
    (now : ℤ) (hlen : config.length ≤ maxConnections) (he : ElapsedInRange config now)
    (junk prior : Reply) (stack : Mem) :
    let sent := status junk hostname config req now
    let got := recvfromReply stack (some (sendtoReply sent.1 sent.2)) prior
    got.ret = sizeofReply ∧
      atoi got.reply.numconnections.val = (matching config req).length ∧
      got.filled = min (matching config req).length maxNConnections ∧
      (∀ i (h : i < (matching config req).length), i < maxNConnections →
        got.reply.stat i = rowRecord now (matching config req)[i]) ∧
      (0 < (matching config req).length →
        ∀ k, sizeofStatusreplyData * min (matching config req).length maxNConnections ≤ k →
          got.reply.details k = prior.details k) := by
  have hle : (matching config req).length ≤ maxConnections :=
    (List.length_filter_le _ _).trans hlen
  have hwf : ∀ r ∈ (matching config req).map (rowRecord now), WellFormed r := by
    intro r hr
    obtain ⟨row, hrow, rfl⟩ := List.mem_map.mp hr
    exact wellFormed_rowRecord he (List.mem_filter.mp hrow).1
  have hcount := atoi_store_count junk.numconnections (n := (matching config req).length)
    (by simp only [maxConnections] at hle; omega)
  obtain ⟨m, hm, hhold, hframe⟩ := recvfromReply_encoded stack
    (initReply junk respOk hostname (matching config req).length) prior
    ((matching config req).map (rowRecord now)) rfl hcount
    (by rw [List.length_map]; exact Nat.min_le_left _ _) hwf (by rwa [List.length_map])
  dsimp only
  rw [status_bytes, hm]
  refine ⟨rfl, hcount, rfl, fun i h hi => ?_, hframe⟩
  have h' : i < ((matching config req).map (rowRecord now)).length := by rwa [List.length_map]
  rw [stat_of_holds (hwf _ (List.getElem_mem h')) (hhold i h' (Nat.lt_min.mpr ⟨h, hi⟩))
    (hle.trans_lt' h), List.getElem_map]

theorem int32_range (n : ℤ) : -2 ^ 31 ≤ int32 n ∧ int32 n < 2 ^ 31 := by
  have h₁ := Int.le_bmod (x := n) (m := 2 ^ 32) (by norm_num)
  have h₂ := Int.bmod_lt (x := n) (m := 2 ^ 32) (by norm_num)
  unfold int32
  omega

/-- Every text `Status` prints for a time is short, fitting or not. -/
theorem renderTime_int32_length_le (n : ℤ) : (renderTime (int32 n)).length ≤ 15 := by
  obtain ⟨hlo, hhi⟩ := int32_range n
  generalize int32 n = v at hlo hhi
  have h₁ := fmt02D_length_le_succ (n := v.tdiv (60 * 60)) (k := 6) (by norm_num) (by
    rw [Int.natAbs_tdiv]
    change v.natAbs / 3600 < 1000000
    omega)
  have h₂ := fmt02D_length_le_succ (n := (v.tmod (60 * 60)).tdiv 60) (k := 2) (by norm_num) (by
    rw [Int.natAbs_tdiv, Int.natAbs_tmod]
    change v.natAbs % 3600 / 60 < 100
    omega)
  have h₃ := fmt02D_length_le_succ (n := (v.tmod (60 * 60)).tmod 60) (k := 2) (by norm_num) (by
    rw [Int.natAbs_tmod, Int.natAbs_tmod]
    change v.natAbs % 3600 % 60 < 100
    omega)
  simp only [renderTime, List.length_append, List.length_singleton]
  omega

theorem printed_rowRecord (now : ℤ) (row : Condata) : Printed (rowRecord now row) := by
  by_cases hp : row.conpid = badPid
  · refine ⟨row.conname_str.1, row.conclass_str.1, ?_, ?_, ?_⟩ <;> simp [rowRecord, hp]
  · refine ⟨row.conname_str.1, row.conclass_str.1, ?_, ?_, ?_⟩ <;>
      simp only [rowRecord, hp, if_false]
    · exact zero_not_mem_cstr _
    · exact zero_not_mem_renderTime _
    · exact Or.inr trivial

theorem encodeRecord_rowRecord_length_le (now : ℤ) (row : Condata) :
    (encodeRecord (rowRecord now row)).length ≤ 66 := by
  have h₁ := row.conname_str.2
  have h₂ := row.conclass_str.2
  have h₃ := row.userName_length_lt
  have h₄ := renderTime_int32_length_le (now - row.contime)
  simp only [maxConnectionName, maxClassName, maxUserName] at h₁ h₂ h₃
  by_cases hp : row.conpid = badPid <;> simp [encodeRecord, rowRecord, hp] <;> omega

/-- A loop that ends well went through all its rounds. -/
theorem recvRecords_count {src : Mem} {n i : ℕ} {c : Cursor}
    (h : (recvRecords src n i c).1 = true) : (recvRecords src n i c).2.1 = i + n := by
  induction n generalizing i c with
  | zero => rfl
  | succ n ih =>
      unfold recvRecords at h ⊢
      rcases hc : recvRecord src (sizeofStatusreplyData * i) c with ⟨_ | _, c₁⟩ <;>
        rw [hc] at h <;> dsimp only at h ⊢
      · exact absurd h (by simp)
      · rw [ih h]
        omega

theorem recvDetails_accepted {src : Mem} {numc : ℤ} {dlen : ℕ} {reply : Reply}
    (h : (recvDetails src numc dlen reply).ret ≠ -1) :
    (recvDetails src numc dlen reply).reply.numconnections = reply.numconnections ∧
      ((recvDetails src numc dlen reply).filled : ℤ) = max 0 (min numc maxNConnections) := by
  have hmax : (maxNConnections : ℤ) = 4 := rfl
  have hclamp : (if numc > maxNConnections then (maxNConnections : ℤ) else numc) =
      min numc maxNConnections := by
    split <;> omega
  unfold recvDetails at h ⊢
  rw [hclamp] at h ⊢
  rcases le_or_gt (min numc (maxNConnections : ℤ)) 0 with hneg | hpos
  · simp only [if_pos hneg]
    exact ⟨trivial, by rw [Nat.cast_zero]; omega⟩
  · simp only [if_neg (Int.not_le.mpr hpos)] at h ⊢
    rcases hrec : recvRecords src (min numc maxNConnections).toNat 0 ⟨0, dlen, reply.details⟩ with
      ⟨_ | _, i, c⟩ <;> rw [hrec] at h <;> dsimp only at h ⊢
    · exact absurd rfl h
    · have := recvRecords_count (by rw [hrec])
      rw [hrec] at this
      dsimp only at this
      exact ⟨rfl, by omega⟩

/-- What a client has after it accepted a status reply, however long the rows
have been held: the first records are those of the matching rows. -/
theorem recvfromReply_status_accepted (config : List Condata) (req : Request)
    (hostname : List Byte) (now : ℤ) (hlen : config.length ≤ maxConnections)
    (junk prior : Reply) (stack : Mem) :
    let sent := status junk hostname config req now
    let got := recvfromReply stack (some (sendtoReply sent.1 sent.2)) prior
    got.ret ≠ -1 →
      atoi got.reply.numconnections.val = (matching config req).length ∧
      ∀ i (h : i < (matching config req).length), i < maxNConnections →
        got.reply.stat i = rowRecord now (matching config req)[i] := by
  have hle : (matching config req).length ≤ maxConnections :=
    (List.length_filter_le _ _).trans hlen
  have hcount := atoi_store_count junk.numconnections (n := (matching config req).length)
    (by simp only [maxConnections] at hle; omega)
  set rs := (matching config req).map (rowRecord now) with hrs
  have hn : rs.length = (matching config req).length := List.length_map _
  set reply := initReply junk respOk hostname (matching config req).length with hreply
  -- the records the decoder looks at lie in front of the cut at the size of a reply
  obtain ⟨tail, hcut⟩ : ∃ tail, (reply.header ++ rs.flatMap encodeRecord).take sizeofReply =
      reply.header ++ ((rs.take maxNConnections).flatMap encodeRecord ++ tail) := by
    have hshort : ((rs.take maxNConnections).flatMap encodeRecord).length ≤
        66 * (rs.take maxNConnections).length := by
      apply length_flatMap_le
      intro r hr
      obtain ⟨row, -, rfl⟩ := List.mem_map.mp (List.mem_of_mem_take hr)
      exact encodeRecord_rowRecord_length_le now row
    have hfour : (rs.take maxNConnections).length ≤ 4 := List.length_take_le _ _
    have hsplit : reply.header ++ rs.flatMap encodeRecord =
        (reply.header ++ (rs.take maxNConnections).flatMap encodeRecord) ++
          (rs.drop maxNConnections).flatMap encodeRecord := by
      rw [List.append_assoc, ← List.flatMap_append, List.take_append_drop]
    refine ⟨((rs.drop maxNConnections).flatMap encodeRecord).take (sizeofReply -
      (reply.header ++ (rs.take maxNConnections).flatMap encodeRecord).length), ?_⟩
    rw [hsplit, List.take_append, List.take_of_length_le, List.append_assoc]
    rw [List.length_append, Reply.header_length]
    change _ ≤ 31302
    omega
  have hlen' : ((reply.header ++ ((rs.take maxNConnections).flatMap encodeRecord ++ tail))).length =
      70 + ((rs.take maxNConnections).flatMap encodeRecord ++ tail).length := by
    rw [List.length_append, Reply.header_length]
  have h70 : sizeofReply - maxDetails = 70 := rfl
  dsimp only
  rw [status_bytes]
  simp only [recvfromReply, ← hrs, ← hreply, hcut, hlen', h70, replyOfBytes_header]
  rw [if_neg (by omega), if_neg (by omega), if_neg (by simp [hreply, initReply]),
    Nat.add_sub_cancel_left, show atoi (reply.numconnections.set (maxNConnections - 1) 0).val = _
      from hcount]
  intro hret
  refine ⟨?_, fun i hi h4 => ?_⟩
  · rw [(recvDetails_accepted hret).1]
    exact hcount
  · have hi' : i < (rs.take maxNConnections).length := by
      rw [List.length_take, hn]
      exact Nat.lt_min.mpr ⟨h4, hi⟩
    have hsrc : (Mem.ofList ((rs.take maxNConnections).flatMap encodeRecord ++ tail)
        (stack.shift 70)).Has 0 ((rs.take maxNConnections).flatMap encodeRecord) :=
      (Mem.has_append.mp (Mem.has_ofList _ _)).1
    have hprinted : ∀ r ∈ rs.take maxNConnections, Printed r := by
      intro r hr
      obtain ⟨row, -, rfl⟩ := List.mem_map.mp (List.mem_of_mem_take hr)
      exact printed_rowRecord now row
    obtain ⟨hwf, hhold⟩ := recvDetails_true (by rw [List.length_take, hn, Nat.min_comm]) hprinted
      hsrc hret i hi'
    rw [stat_of_holds hwf hhold (hi.trans_le hle), List.getElem_take]
    simp only [hrs, List.getElem_map]

theorem roundTrip_of_le {config : List Condata} {req : Request} (hostname : List Byte) {now : ℤ}
    (hlen : config.length ≤ maxConnections) (he : ElapsedInRange config now)
    (h4 : (matching config req).length ≤ maxNConnections) :
    RoundTrip config req hostname now := by
  intro junk prior stack
  obtain ⟨h₁, h₂, -, h₃, -⟩ := recvfromReply_status config req hostname now hlen he junk prior stack
  exact ⟨h₁, h₂, fun i h => h₃ i h (h.trans_le h4)⟩

/-- The record behind the fourth keeps what the caller's memory held. -/
theorem le_of_roundTrip {config : List Condata} {req : Request} {hostname : List Byte} {now : ℤ}
    (hlen : config.length ≤ maxConnections) (he : ElapsedInRange config now)
    (hrt : RoundTrip config req hostname now) :
    (matching config req).length ≤ maxNConnections := by
  by_contra hgt
  have hgt : maxNConnections < (matching config req).length := Nat.lt_of_not_le hgt
  let prior : Reply := ⟨0, 0, CharArray.zero _, CharArray.zero _, fun _ => 2⟩
  obtain ⟨-, -, -, -, hframe⟩ :=
    recvfromReply_status config req hostname now hlen he prior prior (fun _ => 0)
  obtain ⟨-, -, hall⟩ := hrt prior prior (fun _ => 0)
  have hstat := congrArg StatusreplyData.active (hall maxNConnections hgt)
  have hmem := hframe (by omega) (sizeofStatusreplyData * maxNConnections + offActive)
    (by rw [Nat.min_eq_right hgt.le]; exact Nat.le_add_right _ _)
  have htwo : (2 : Byte) = (rowRecord now (matching config req)[maxNConnections]).active :=
    hmem.symm.trans hstat
  simp only [rowRecord] at htwo
  split at htwo <;> exact absurd htwo (by decide)

/-- A request of every row's status. -/
def statusAll : Request := ⟨curVersion, reqStatus, CharArray.zero _, CharArray.zero _, CharArray.zero _⟩

/-- **The status reply round trip.** For every table of at most
`MAXCONNECTIONS` rows and every filter, decoding the reply gives back every
matching row if and only if at most `MAXNCONNECTIONS` rows match. -/
theorem status_roundTrip_iff (config : List Condata) (req : Request) (hostname : List Byte)
    (now : ℤ) (hlen : config.length ≤ maxConnections) (he : ElapsedInRange config now) :
    RoundTrip config req hostname now ↔ (matching config req).length ≤ maxNConnections :=
  ⟨le_of_roundTrip hlen he, roundTrip_of_le hostname hlen he⟩

/-- `argo`, made for ann at the time 100. -/
def madeArgo : Condata :=
  { argo with
    conpid := 7
    contime := 100
    user := (CharArray.zero maxUserName).strncpy (text "ann") maxUserName
    user_end := rfl }

/-- A row that was made an hour ago, and a free one. -/
theorem status_roundTrip_two_rows :
    RoundTrip [madeArgo, brig] statusAll (text "host") 3700 := by
  have hrange : ElapsedInRange [madeArgo, brig] 3700 := by
    intro row hrow hheld
    rcases List.mem_pair.mp hrow with rfl | rfl
    · exact ⟨by decide, by decide⟩
    · exact absurd rfl hheld
  exact (status_roundTrip_iff _ statusAll (text "host") 3700 (by decide) hrange).mpr (by decide)

/-- Five free rows do not survive. -/
theorem not_roundTrip_five_rows :
    ¬RoundTrip [entry "argo", entry "brig", entry "cog", entry "dhow", entry "egad"]
      statusAll (text "host") 0 := fun hrt =>
  absurd (le_of_roundTrip (by decide)
    (by intro row hrow hp; simp [entry] at hrow
        rcases hrow with rfl | rfl | rfl | rfl | rfl <;> simp at hp) hrt) (by decide)

/-! ### The count the consumers read -/

/-- How many entries `getTCPConnection`, `findSecond` and `printstatus` go
through: each takes `atoi( reply.numconnections )` for its bound. -/
def consumed (reply : Reply) : ℕ := (atoi reply.numconnections.val).toNat

/-- The count a datagram announces, its last byte replaced by a NUL. -/
def announced (d : List Byte) : ℤ :=
  atoi (((d.drop (2 + maxHostName)).take maxNConnections).set (maxNConnections - 1) 0)

/-- The header of an accepted reply announces what the datagram announces, and
the loop fills that many records up to its limit. -/
theorem recvfromReply_accepted {stack : Mem} {d : List Byte} {prior : Reply}
    (h : (recvfromReply stack (some d) prior).ret ≠ -1) :
    atoi (recvfromReply stack (some d) prior).reply.numconnections.val = announced d ∧
      ((recvfromReply stack (some d) prior).filled : ℤ) =
        max 0 (min (announced d) maxNConnections) := by
  unfold recvfromReply at h ⊢
  dsimp only at h ⊢
  split at h
  · exact absurd rfl h
  split at h
  · exact absurd rfl h
  rename_i hempty hshort
  rw [if_neg hempty, if_neg hshort]
  split at h
  · exact absurd rfl h
  rename_i hversion
  rw [if_neg hversion]
  have hfield : ((replyOfBytes (d.take sizeofReply) stack).numconnections.set
      (maxNConnections - 1) 0).val =
        ((d.drop (2 + maxHostName)).take maxNConnections).set (maxNConnections - 1) 0 := by
    have hlen : 70 ≤ (d.take sizeofReply).length := Nat.le_of_not_lt hshort
    simp only [CharArray.set, replyOfBytes]
    rw [Mem.read_ofList _ _ hlen, List.drop_take, List.take_take]
    congr 2
  have hcount : atoi ((replyOfBytes (d.take sizeofReply) stack).numconnections.set
      (maxNConnections - 1) 0).val = announced d := by rw [hfield, announced]
  rw [hcount] at h ⊢
  obtain ⟨h₁, h₂⟩ := recvDetails_accepted h
  rw [h₁]
  exact ⟨hcount, h₂⟩

/-- **Consumers and decoder.** On a datagram that `recvfromReply` accepts the
consumers stay within the records it filled if and only if the datagram
announces at most `MAXNCONNECTIONS` of them. -/
theorem consumed_le_filled_iff (stack : Mem) (d : List Byte) (prior : Reply)
    (h : (recvfromReply stack (some d) prior).ret ≠ -1) :
    consumed (recvfromReply stack (some d) prior).reply ≤
        (recvfromReply stack (some d) prior).filled ↔ announced d ≤ maxNConnections := by
  obtain ⟨h₁, h₂⟩ := recvfromReply_accepted h
  simp only [consumed, h₁]
  have hmax : (maxNConnections : ℤ) = 4 := rfl
  rw [hmax] at h₂ ⊢
  omega

/-- A reply that announces `count` rows and carries four free ones. -/
def fourRows (count : String) : List Byte :=
  curVersion :: respOk :: (List.replicate maxHostName 0 ++ text count ++ [0] ++
    (List.replicate 4 [97, 0, 109, 0, 0]).flatten)

theorem consumed_le_filled_four :
    consumed (recvfromReply (fun _ => 0) (some (fourRows "  4"))
      ⟨0, 0, CharArray.zero _, CharArray.zero _, fun _ => 0⟩).reply ≤ 4 :=
  (consumed_le_filled_iff (fun _ => 0) (fourRows "  4")
    ⟨0, 0, CharArray.zero _, CharArray.zero _, fun _ => 0⟩ (by decide)).mpr (by decide)

/-- Announced as 999 rows they are accepted too: four records are filled, and
the consumers go through 999, more than `details` has room for. -/
theorem consumed_past_filled :
    let got := recvfromReply (fun _ => 0) (some (fourRows "999"))
      ⟨0, 0, CharArray.zero _, CharArray.zero _, fun _ => 0⟩
    got.ret = sizeofReply ∧ got.filled = 4 ∧ consumed got.reply = 999 ∧
      maxConnections < consumed got.reply := by
  decide

theorem recvDetails_hostname (src : Mem) (numc : ℤ) (dlen : ℕ) (reply : Reply) :
    (recvDetails src numc dlen reply).reply.hostname = reply.hostname := by
  unfold recvDetails
  generalize (if numc > maxNConnections then (maxNConnections : ℤ) else numc) = n
  dsimp only
  split
  · rfl
  · rcases recvRecords src n.toNat 0 ⟨0, dlen, reply.details⟩ with ⟨_ | _, _, _⟩ <;> rfl

/-- The host name of a reply that was accepted leaves room for its terminator. -/
theorem recvfromReply_hostname {stack : Mem} {d : List Byte} {prior : Reply}
    (h : (recvfromReply stack (some d) prior).ret ≠ -1) :
    (cstr (recvfromReply stack (some d) prior).reply.hostname.val).length < maxHostName := by
  unfold recvfromReply at h ⊢
  dsimp only at h ⊢
  split
  · next hempty => exact absurd (by rw [if_pos hempty]) h
  next hempty =>
  rw [if_neg hempty] at h
  split
  · next hshort => exact absurd (by rw [if_pos hshort]) h
  next hshort =>
  rw [if_neg hshort] at h
  split
  · next hversion => exact absurd (by rw [if_pos hversion]) h
  · rw [recvDetails_hostname]
    refine Nat.lt_succ_of_le (CharArray.cstr_length_le_of_end _ ?_)
    refine List.getElem?_set_self ?_
    rw [(replyOfBytes (d.take sizeofReply) stack).hostname.property]
    exact Nat.lt_succ_self _

end XinuConsole
