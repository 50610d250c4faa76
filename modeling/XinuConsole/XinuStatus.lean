import XinuConsole.ObtainStatus
import XinuConsole.Reservation

/-!
`src/xinu-status.c`: the program that asks the daemons for their tables and prints
them.

Its loop keeps one reply on the stack and prints as many records as the header
announces. The decoder fills `MAXNCONNECTIONS` of them, so what is printed for a
daemon is its first matching rows and, behind them, records that the stack held.
-/

namespace XinuConsole.XinuStatus

open Lib ConnectUtils ObtainStatus Netutils Consoled Reservation

/-! ### The arguments -/

/-- The variables of `main` that the arguments set. -/
structure Args where
  fflag : Bool
  bflag : Bool
  cls : CharArray maxClassName
  host : CharArray maxHostName
  connection : CharArray maxConnectionName

/-- The arrays of `main` on a stack with any content. -/
def Args.start (cls : CharArray maxClassName) (host : CharArray maxHostName)
    (connection : CharArray maxConnectionName) : Args where
  fflag := false
  bflag := false
  cls := (cls.set 0 0).set (maxClassName - 1) 0
  host := (host.set 0 0).set (maxHostName - 1) 0
  connection := (connection.set 0 0).set (maxConnectionName - 1) 0

/-- The loop of `main` over the arguments behind the program's name; `none` where
`printusage` ends the program. -/
def options : List (List Byte) → Args → Option Args
  | [], a => some a
  | arg :: rest, a =>
      if strnequ arg (text "-h") 2 then none
      else if strnequ arg (text "-b") 2 then options rest { a with bflag := true }
      else if strnequ arg (text "-f") 2 then options rest { a with fflag := true }
      else if strnequ arg (text "-c") 2 then
        match rest with
        | [] => none
        | name :: rest => options rest { a with cls := a.cls.strncpy name (maxClassName - 1) }
      else if strnequ arg (text "-s") 2 then
        match rest with
        | [] => none
        | name :: rest => options rest { a with host := a.host.strncpy name (maxHostName - 1) }
      else if arg.headD 0 = 45 then none
      else
        options rest { a with connection := a.connection.strncpy arg (maxConnectionName - 1) }

/-- Both parts are printed unless one was asked for. -/
def Args.defaults (a : Args) : Args :=
  if a.fflag = false ∧ a.bflag = false then { a with fflag := true, bflag := true } else a

/-! ### Printing -/

/-- `DOMAINNAME`, as `configure` sets it. -/
def domainName : List Byte := text "mscs.mu.edu"

/-- The name that `printName` prints. -/
def shortName (sb : List Byte) : List Byte :=
  let len := sb.length
  let dlen := domainName.length
  if dlen < len ∧ sb.getD (len - dlen - 1) 0 = 46 ∧ sb.drop (len - dlen) = domainName then
    sb.take (len - dlen - 1)
  else sb

def printName (sb : List Byte) : List Byte := shortName sb ++ text ":"

/-- The conversion `%-16s`. -/
def column (s : List Byte) : List Byte := s ++ List.replicate (16 - s.length) 32

/-- What the loop of `printstatus` prints for a record. -/
def printRow (fflag bflag : Bool) (stat : StatusreplyData) : List Byte :=
  if bflag then
    (if fflag then text "    " else []) ++ column stat.conname ++ text " " ++
      column stat.conclass ++ text " user= " ++ column stat.user ++ text " time= " ++
      stat.contime ++ text "\n"
  else if fflag then text " " ++ stat.conname
  else []

def printstatus (reply : Reply) (fflag bflag : Bool) : List Byte :=
  (if fflag then printName (cstr reply.hostname.val) ++ (if bflag then text "\n" else []) else []) ++
    ((List.range (atoi reply.numconnections.val).toNat).flatMap fun i =>
      printRow fflag bflag (reply.stat i)) ++
    if fflag ∧ bflag = false then text "\n" else []

/-! ### The program -/

/-- The loops of `main`; the first one is left when every server had its turn. The
stack of round `count` is `fresh count`. -/
def loop (fresh : ℕ → Mem × Reply) (a : Args) (numservers : ℕ) : ℕ → List (List Byte) → List Byte
  | _, [] => []
  | count, d :: ds =>
      if 0 < numservers ∧ ¬count < numservers then []
      else
        let r := recvfromReply (fresh count).1 (some d) (fresh count).2
        if r.ret < 0 then []
        else printstatus r.reply a.fflag a.bflag ++ loop fresh a numservers (count + 1) ds

/-- What `main` finds when it starts, and what happens to it. -/
structure Setting where
  stack : Args
  surroundings : Surroundings
  nets : Slots InAddr maxNets
  envClass : Option (List Byte)
  user : List Byte
  reqStack : Request
  fresh : ℕ → Mem × Reply
  arriving : List (List Byte)

/-- The request that `statusrequest` sends. -/
def Setting.request (k : Setting) (a : Args) : Request :=
  initRequest k.reqStack k.user reqStatus (some a.connection.val)
    (some (MakeConnection.getdfltClass k.envClass (some a.cls) (some a.connection)))

/-- The variables behind the loop over the arguments. -/
def Setting.args (k : Setting) (argv : List (List Byte)) : Option Args :=
  (options argv (Args.start k.stack.cls k.stack.host k.stack.connection)).map Args.defaults

/-- `main`: the exit status and the standard output. -/
def main (k : Setting) (argv : List (List Byte)) : Option (ℤ × List Byte) :=
  match k.args argv with
  | none => some (1, [])
  | some a => do
      let (ok, _) ← statusrequest k.surroundings (some a.host.val) k.nets
      if ok = false then some (1, [])
      else do
        let servers ← serverNames k.surroundings (some a.host.val)
        some (0, loop k.fresh a servers.length 0 k.arriving)

/-- The name is cut where the domain begins. -/
theorem shortName_append (front : List Byte) : shortName (front ++ 46 :: domainName) = front := by
  have hlen : (front ++ 46 :: domainName).length = front.length + 1 + domainName.length := by
    rw [List.length_append, List.length_cons]
    omega
  have hdot : (front ++ 46 :: domainName).length - domainName.length - 1 = front.length := by omega
  have htail : (front ++ 46 :: domainName).length - domainName.length = front.length + 1 := by omega
  rw [shortName]
  rw [hdot, htail, if_pos, List.take_left]
  refine ⟨by omega, by simp, ?_⟩
  rw [← List.drop_drop, List.drop_left]
  rfl

/-! ### What is printed for a daemon -/

/-- The names that are asked for; an empty one leaves the choice open. -/
def Setting.asks (k : Setting) (a : Args) (row : Condata) : Bool :=
  let conname := (cstr a.connection.val).take 15
  let conclass := (cstr (MakeConnection.getdfltClass k.envClass (some a.cls)
    (some a.connection))).take 15
  (conname = [] ∨ row.conname = conname) ∧ (conclass = [] ∨ row.conclass = conclass)

/-- The answer of a daemon, and the records of the stack that are printed with it. -/
structure Shown where
  listing : Listing
  stale : List StatusreplyData

/-- The lines of the rows of one daemon. -/
def block (a : Args) (hostname : List Byte) (rows : List StatusreplyData) : List Byte :=
  (if a.fflag then printName hostname ++ (if a.bflag then text "\n" else []) else []) ++
    rows.flatMap (printRow a.fflag a.bflag) ++
    if a.fflag ∧ a.bflag = false then text "\n" else []

/-- The text printed for a daemon: its rows asked for, and what is stale. -/
def Shown.text (s : Shown) (k : Setting) (a : Args) : List Byte :=
  block a ((cstr s.listing.hostname.val).take (maxHostName - 1))
    (((s.listing.config.filter (k.asks a)).take maxNConnections).map (rowRecord s.listing.now) ++
      s.stale)

section Matching

theorem strnequ_of_field {field name : List Byte} {n : ℕ} (h0 : (0 : Byte) ∉ name)
    (hname : name.length < n) (hfield : (cstr field).length < n) :
    strnequ field name n = true ↔ name = cstr field := by
  rw [strnequ_iff, cstr_of_not_mem h0, List.take_of_length_le hname.le,
    List.take_of_length_le hfield.le]
  exact eq_comm

/-- The filter of `Status`, for a request with terminated names. -/
theorem statusMatches_iff {req : Request} (row : Condata)
    (hname : (cstr req.conname.val).length < maxConnectionName)
    (hclass : (cstr req.conclass.val).length < maxClassName) :
    statusMatches req row = true ↔
      (cstr req.conname.val = [] ∨ row.conname = cstr req.conname.val) ∧
        (cstr req.conclass.val = [] ∨ row.conclass = cstr req.conclass.val) := by
  rw [statusMatches, Bool.and_eq_true, Bool.or_eq_true, Bool.or_eq_true, decide_eq_true_iff,
    decide_eq_true_iff, headD_eq_zero_iff, headD_eq_zero_iff,
    strnequ_of_field row.conname_str.1 row.conname_str.2 hname,
    strnequ_of_field row.conclass_str.1 row.conclass_str.2 hclass]

/-- The daemon's filter lets through the rows that the arguments ask for. -/
theorem matching_request (k : Setting) (a : Args) (config : List Condata) :
    matching config (k.request a) = config.filter (k.asks a) := by
  have hname : cstr (k.request a).conname.val = (cstr a.connection.val).take 15 :=
    cstr_initRequest_conname _ _ _ _ _
  have hclass : cstr (k.request a).conclass.val = (cstr (MakeConnection.getdfltClass k.envClass
      (some a.cls) (some a.connection))).take 15 :=
    cstr_initRequest_conclass _ _ _ _ _
  have htake (s : List Byte) : (s.take 15).length < 16 :=
    Nat.lt_succ_of_le (List.length_take_le _ _)
  apply List.filter_congr
  intro row _
  rw [Bool.eq_iff_iff, statusMatches_iff row (hname ▸ htake _) (hclass ▸ htake _), hname, hclass,
    Setting.asks, decide_eq_true_iff]

end Matching

/-- The host name of a decoded answer is the daemon's. -/
theorem hostname_decoded {l : Listing} {reply : Reply} (hd : Decodes l reply) :
    cstr reply.hostname.val = (cstr l.hostname.val).take (maxHostName - 1) := by
  obtain ⟨stack, prior, hret, rfl⟩ := hd
  set sent := initReply l.junk respOk l.hostname.val (matching l.config l.req).length with hsent
  obtain ⟨ds, hds⟩ : ∃ ds, l.dgram.take sizeofReply = sent.header ++ ds := by
    refine ⟨(((matching l.config l.req).map (rowRecord l.now)).flatMap encodeRecord).take
      (sizeofReply - sent.header.length), ?_⟩
    rw [Listing.dgram, status_bytes, List.take_append, List.take_of_length_le]
    rw [Reply.header_length]
    exact Nat.le_add_right 70 maxDetails
  have hname : (sent.hostname.set (maxHostName - 1) 0).val = sent.hostname.val := by
    show sent.hostname.val.set 63 0 = sent.hostname.val
    rw [hsent]
    show (List.set _ 63 0).set 63 0 = List.set _ 63 0
    exact List.set_set ..
  rw [recvfromReply] at hret ⊢
  dsimp only at hret ⊢
  rw [hds] at hret ⊢
  split at hret
  · exact absurd rfl hret
  split at hret
  · exact absurd rfl hret
  next hempty hshort =>
  rw [if_neg hempty, if_neg hshort]
  split at hret
  · exact absurd rfl hret
  next hversion =>
  rw [if_neg hversion, recvDetails_hostname, replyOfBytes_header]
  show cstr (sent.hostname.set (maxHostName - 1) 0).val = _
  rw [hname]
  exact CharArray.cstr_set_strncpy_full l.junk.hostname l.hostname.val (by decide)

section Printing

variable {k : Setting} {a : Args}

theorem printstatus_eq (reply : Reply) (a : Args) : printstatus reply a.fflag a.bflag =
    block a (cstr reply.hostname.val)
      ((List.range (atoi reply.numconnections.val).toNat).map reply.stat) := by
  rw [printstatus, block, List.flatMap_map]

/-- The records that are printed for an answer: the rows behind the first
`MAXNCONNECTIONS` are those of the stack. -/
theorem records_decoded {l : Listing} {reply : Reply} (hd : Decodes l reply)
    (hsize : l.config.length ≤ maxConnections) :
    ∃ stale : List StatusreplyData,
      stale.length = (matching l.config l.req).length - maxNConnections ∧
      (List.range (atoi reply.numconnections.val).toNat).map reply.stat =
        ((matching l.config l.req).take maxNConnections).map (rowRecord l.now) ++ stale := by
  obtain ⟨hcount, hstat⟩ := rows_of_decodes hd hsize
  generalize matching l.config l.req = rows at hcount hstat
  refine ⟨((List.range rows.length).drop maxNConnections).map reply.stat, by simp, ?_⟩
  rw [hcount, Int.toNat_natCast]
  conv_lhs => rw [← List.take_append_drop maxNConnections (List.range rows.length)]
  rw [List.map_append]
  congr 1
  apply List.ext_getElem
  · simp
  · intro i hi hi'
    rw [List.length_map, List.length_take] at hi'
    rw [List.getElem_map, List.getElem_map, List.getElem_take, List.getElem_take,
      List.getElem_range]
    exact hstat i (hi'.trans_le (Nat.min_le_right _ _)) (hi'.trans_le (Nat.min_le_left _ _))

/-- What is printed for one answer. -/
theorem shown_of_decodes {l : Listing} {reply : Reply} (hd : Decodes l reply)
    (hsize : l.config.length ≤ maxConnections) (hreq : l.req = k.request a) :
    ∃ s : Shown, s.listing = l ∧
      s.stale.length = (l.config.filter (k.asks a)).length - maxNConnections ∧
      printstatus reply a.fflag a.bflag = s.text k a := by
  obtain ⟨stale, hlen, hrows⟩ := records_decoded hd hsize
  rw [hreq, matching_request] at hlen hrows
  refine ⟨⟨l, stale⟩, rfl, hlen, ?_⟩
  rw [printstatus_eq, hrows, hostname_decoded hd, Shown.text]

/-- The loops of `main` collect replies as `obtainStatus` does, and print each. -/
theorem loop_eq_collect (fresh : ℕ → Mem × Reply) (a : Args) (numservers : ℕ) (count rounds : ℕ)
    (ds : List (List Byte)) (hbound : 0 < numservers → rounds = numservers - count)
    (hfree : numservers = 0 → ds.length ≤ rounds) :
    loop fresh a numservers count ds =
      (collect fresh rounds count ds).flatMap fun reply => printstatus reply a.fflag a.bflag := by
  induction ds generalizing count rounds with
  | nil => cases rounds <;> rfl
  | cons d ds ih =>
      cases rounds with
      | zero =>
          have hpos : 0 < numservers := by
            by_contra hzero
            exact absurd (hfree (Nat.eq_zero_of_not_pos hzero)) (by simp)
          have := hbound hpos
          rw [loop, if_pos ⟨hpos, by omega⟩]
          rfl
      | succ rounds =>
          have hgo : ¬(0 < numservers ∧ ¬count < numservers) := by
            rintro ⟨hpos, hdone⟩
            have := hbound hpos
            omega
          rw [loop, if_neg hgo, collect]
          dsimp only
          split
          · rfl
          · rw [ih (count + 1) rounds (fun hpos => by have := hbound hpos; omega)
              (fun hzero => Nat.le_of_succ_le_succ (hfree hzero)), List.flatMap_cons]

theorem shown_of_replies {ds : List (List Byte)} {replies : List Reply}
    (h : List.Forall₂ DecodedAs ds replies)
    (hds : ∀ d ∈ ds, ∃ l : Listing, l.dgram = d ∧ l.req = k.request a ∧
      l.config.length ≤ maxConnections) :
    ∃ shown : List Shown, shown.map (·.listing.dgram) = ds ∧
      (∀ s ∈ shown, s.listing.req = k.request a ∧
        s.stale.length = (s.listing.config.filter (k.asks a)).length - maxNConnections) ∧
      (replies.flatMap fun reply => printstatus reply a.fflag a.bflag) =
        shown.flatMap fun s => s.text k a := by
  induction h with
  | nil => exact ⟨[], rfl, by simp, rfl⟩
  | cons hd _ ih =>
      obtain ⟨shown, hmap, hall, htext⟩ := ih fun d hd => hds d (List.mem_cons_of_mem _ hd)
      obtain ⟨l, rfl, hreq, hsize⟩ := hds _ List.mem_cons_self
      obtain ⟨s, rfl, hstale, hprint⟩ := shown_of_decodes hd hsize hreq
      refine ⟨s :: shown, congrArg (s.listing.dgram :: ·) hmap, ?_, ?_⟩
      · exact List.forall_mem_cons.mpr ⟨⟨hreq, hstale⟩, hall⟩
      · rw [List.flatMap_cons, List.flatMap_cons, hprint, htext]

end Printing

/-- The datagrams that `main` reads: one for each server of the list, or all, up to the
first that is not a well-formed reply. -/
def heard (servers arriving : List (List Byte)) : List (List Byte) :=
  (if servers = [] then arriving else arriving.take servers.length).takeWhile wellFormedReply

/-- **What the user is shown.** Where the well-formed datagrams are the daemons'
answers to the request, the program prints a block for each one that it reads, in the
order of arrival: the rows of that daemon's table that the arguments ask for, in the
order of the table. Of more than `MAXNCONNECTIONS` of them the first ones are right,
and the others are lines as many as there are rows. -/
theorem shows_tables (k : Setting) {argv : List (List Byte)} {a : Args} (hargs : k.args argv = some a)
    {sent : List InAddr} {servers : List (List Byte)}
    (hsocket : statusrequest k.surroundings (some a.host.val) k.nets = some (true, sent))
    (hservers : serverNames k.surroundings (some a.host.val) = some servers)
    (harriving : ∀ d ∈ k.arriving, wellFormedReply d = true → ∃ l : Listing, l.dgram = d ∧
      l.req = k.request a ∧ l.config.length ≤ maxConnections) :
    ∃ shown : List Shown, shown.map (·.listing.dgram) = heard servers k.arriving ∧
      (∀ s ∈ shown, s.listing.req = k.request a ∧
        s.stale.length = (s.listing.config.filter (k.asks a)).length - maxNConnections) ∧
      main k argv = some (0, shown.flatMap fun s => s.text k a) := by
  have hmain : main k argv = some (0, loop k.fresh a servers.length 0 k.arriving) := by
    simp only [main, hargs, hsocket, hservers, Option.bind_eq_bind, Option.bind_some]
    rfl
  obtain ⟨rounds, hheard, hbound, hfree⟩ : ∃ rounds,
      (k.arriving.take rounds).takeWhile wellFormedReply = heard servers k.arriving ∧
      (0 < servers.length → rounds = servers.length - 0) ∧
      (servers.length = 0 → k.arriving.length ≤ rounds) := by
    cases servers with
    | nil => exact ⟨k.arriving.length, by simp [heard], nofun, fun _ => le_rfl⟩
    | cons server servers => exact ⟨(server :: servers).length, rfl, fun _ => rfl, nofun⟩
  have hcollected := collect_decoded k.fresh rounds 0 k.arriving
  rw [hheard] at hcollected
  have hmem : ∀ d ∈ heard servers k.arriving, d ∈ k.arriving ∧ wellFormedReply d = true := by
    rw [← hheard]
    intro d hd
    exact ⟨List.mem_of_mem_take ((List.takeWhile_sublist _).mem hd), List.mem_takeWhile_imp hd⟩
  obtain ⟨shown, hmap, hall, htext⟩ := shown_of_replies hcollected fun d hd =>
    harriving d (hmem d hd).1 (hmem d hd).2
  refine ⟨shown, hmap, hall, ?_⟩
  rw [hmain, loop_eq_collect k.fresh a servers.length 0 rounds k.arriving hbound hfree, htext]

/-- The server `xinu` is asked. -/
def askXinu : List (List Byte) := [text "-s", text "xinu"]

def askXinuArgs : Args :=
  { Args.start (CharArray.zero _) (CharArray.zero _) (CharArray.zero _) with
    fflag := true
    bflag := true
    host := (CharArray.zero _).strncpy (text "xinu") (maxHostName - 1) }

def askedXinu (arriving : List (List Byte)) : Setting where
  stack := Args.start (CharArray.zero _) (CharArray.zero _) (CharArray.zero _)
  surroundings := twoServers
  nets := Slots.fresh InAddr maxNets
  envClass := none
  user := text "ann"
  reqStack := statusAll
  fresh := zeroed
  arriving := arriving

/-- Its answer, with two free rows. -/
def xinuListing : Listing :=
  ⟨zeroReply, (CharArray.zero _).strncpy (text "xinu") (maxHostName - 1), [argo, brig],
    (askedXinu []).request askXinuArgs, 0⟩

theorem shows_tables_xinu : ∃ s : Shown, s.listing.dgram = xinuListing.dgram ∧
    main (askedXinu [xinuListing.dgram]) askXinu =
      some (0, s.text (askedXinu [xinuListing.dgram]) askXinuArgs) := by
  have helapsed : ElapsedInRange xinuListing.config xinuListing.now := by
    intro row hrow hheld
    rcases List.mem_pair.mp hrow with rfl | rfl <;> exact absurd rfl hheld
  have hsize : xinuListing.config.length ≤ maxConnections := by decide
  have hformed : wellFormedReply xinuListing.dgram = true := by
    obtain ⟨_, stack, prior, hret, -⟩ := exists_decodes xinuListing hsize helapsed
    rw [recvfromReply_ret] at hret
    by_contra hmalformed
    exact hret (if_neg hmalformed)
  have hargs : (askedXinu [xinuListing.dgram]).args askXinu = some askXinuArgs := by rfl
  have hsocket : statusrequest twoServers (some askXinuArgs.host.val) (Slots.fresh InAddr maxNets) =
      some (true, [0x80D20301]) := by
    decide
  have hservers : serverNames twoServers (some askXinuArgs.host.val) = some [text "xinu"] := by
    decide
  obtain ⟨shown, hmap, -, hmain⟩ := shows_tables _ hargs hsocket hservers fun d hd _ =>
    ⟨xinuListing, (List.mem_singleton.mp hd).symm, rfl, hsize⟩
  have hone : heard [text "xinu"] (askedXinu [xinuListing.dgram]).arriving = [xinuListing.dgram] := by
    show List.takeWhile wellFormedReply [xinuListing.dgram] = _
    rw [List.takeWhile_cons_of_pos hformed, List.takeWhile_nil]
  rw [hone] at hmap
  obtain ⟨s, rfl, hs⟩ := List.map_eq_singleton_iff.mp hmap
  rw [List.flatMap_singleton] at hmain
  exact ⟨s, hs, hmain⟩

end XinuConsole.XinuStatus
