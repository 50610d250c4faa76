import XinuConsole.Broadcast
import XinuConsole.DecoderSafety
import XinuConsole.Servers

/-!
`lib/obtainStatus.c`: the status request goes out to the servers of the list
and by broadcast, and the replies are collected.

The datagrams that arrive at the status socket are a list; each comes before
the wait for it ends, and behind the last one the wait times out. How many are
waited for is the length of the list of servers, and the first one that is not
a well-formed reply ends the wait (`obtainStatus_iff`).
-/

namespace XinuConsole.ObtainStatus

open Lib ConnectUtils Netutils

/-- What the calls of the library answer: the environment variable, the address
of a name in dots, the one of a host, whether the socket can be opened, bound
and given its buffer, and the calls of the broadcast. -/
structure Surroundings where
  env : Option (List Byte)
  inetAddr : List Byte → Option InAddr
  gethostbyname : List Byte → Option InAddr
  socket : Bool
  bind : Bool
  rcvbuf : Bool
  broadcast : Bool
  ifconf : Option (List Ifreq)
  sent : ℕ → Bool

/-- `fakemulticast`: the addresses the request is sent to, and whether there is
an entry `*`. -/
def fakemulticast (w : Surroundings) : List (List Byte) → List InAddr × Bool
  | [] => ([], false)
  | server :: servers =>
      let rest := fakemulticast w servers
      if server = text "*" then (rest.1, true)
      else if server = [] then rest
      else
        match (w.inetAddr server).or (w.gethostbyname server) with
        | none => rest
        | some addr => (addr :: rest.1, rest.2)

/-- The string that an element of the array refers to. -/
def serverName (host buf : List Byte) : Option ServerPtr → List Byte
  | some (.copy p) => cstr (buf.drop p)
  | some .host => cstr host
  | _ => []

/-- `getservers`, and the strings of the servers it returned. -/
def serverNames (w : Surroundings) (host : Option (List Byte)) : Option (List (List Byte)) := do
  let (k, buf, servers) ← getservers w.env host (Slots.fresh ServerPtr maxServers)
  some ((List.range k).map fun j => serverName (host.getD []) buf (servers.load j))

/-- `statusrequest`: whether it returns a socket, and where the request was sent. -/
def statusrequest (w : Surroundings) (host : Option (List Byte)) (stack : Slots InAddr maxNets) :
    Option (Bool × List InAddr) :=
  if w.socket = false ∨ w.bind = false ∨ w.rcvbuf = false then some (false, [])
  else do
    let servers ← serverNames w host
    let (sent, bcast) := if servers ≠ [] then fakemulticast w servers else ([], true)
    if bcast then do
      let (status, nets) ← bcastUDP w.broadcast w.ifconf stack w.sent
      some (decide (0 ≤ status), sent ++ nets)
    else some (true, sent)

/-- The loop of `obtainStatus` with `k` rounds to go. The memory of the round
number `i` is `fresh i`: the decoder's copy of the datagram and the new reply. -/
def collect (fresh : ℕ → Mem × Reply) : ℕ → ℕ → List (List Byte) → List Reply
  | 0, _, _ => []
  | _ + 1, _, [] => []
  | k + 1, i, d :: ds =>
      let r := recvfromReply (fresh i).1 (some d) (fresh i).2
      if r.ret < 0 then [] else r.reply :: collect fresh k (i + 1) ds

/-- How many replies are waited for. -/
def awaited (numservers cnt : ℕ) : ℕ := if 0 < numservers then numservers else cnt

/-- `obtainStatus`: the replies it stores in the array of its caller. The
process exits where there is no status socket, which is `none` inside. -/
def obtainStatus (w : Surroundings) (host : Option (List Byte)) (stack : Slots InAddr maxNets)
    (fresh : ℕ → Mem × Reply) (arriving : List (List Byte)) (cnt : ℕ) :
    Option (Option (List Reply)) := do
  let (ok, _) ← statusrequest w host stack
  if ok = false then some none
  else do
    let servers ← serverNames w host
    some (some (collect fresh (awaited servers.length cnt) 0 arriving))

/-! ### The replies collected -/

/-- `reply` is a decoded form of the datagram `d`. -/
def DecodedAs (d : List Byte) (reply : Reply) : Prop :=
  ∃ junk prior, (recvfromReply junk (some d) prior).ret ≠ -1 ∧
    (recvfromReply junk (some d) prior).reply = reply

/-- The loop takes the datagrams in front of the first one that is not a
well-formed reply. -/
theorem collect_decoded (fresh : ℕ → Mem × Reply) (k i : ℕ) (ds : List (List Byte)) :
    List.Forall₂ DecodedAs ((ds.take k).takeWhile wellFormedReply) (collect fresh k i ds) := by
  induction k generalizing i ds with
  | zero => exact .nil
  | succ k ih =>
      cases ds with
      | nil => exact .nil
      | cons d ds =>
          have hret := recvfromReply_ret (fresh i).1 d (fresh i).2
          rw [collect, List.take_succ_cons]
          by_cases hwf : wellFormedReply d = true
          · rw [if_pos hwf] at hret
            rw [List.takeWhile_cons_of_pos hwf]
            rw [if_neg (by rw [hret]; simp)]
            exact .cons ⟨_, _, by rw [hret]; simp, rfl⟩ (ih (i + 1) ds)
          · rw [if_neg hwf] at hret
            rw [List.takeWhile_cons_of_neg hwf]
            rw [if_pos (by rw [hret]; simp)]
            exact .nil

/-- Both what is collected and what should be are the front of the well-formed
replies, so they agree if they are as long. -/
theorem collected_iff {k cnt : ℕ} {ds : List (List Byte)} {replies : List Reply}
    (h : List.Forall₂ DecodedAs ((ds.take k).takeWhile wellFormedReply) replies) :
    List.Forall₂ DecodedAs ((ds.filter wellFormedReply).take cnt) replies ↔
      min k (ds.takeWhile wellFormedReply).length = min cnt (ds.filter wellFormedReply).length := by
  rw [← List.take_takeWhile] at h
  have hlen := h.length_eq
  rw [List.length_take] at hlen
  constructor
  · intro h'
    rw [hlen, ← h'.length_eq, List.length_take]
  · intro hmin
    have hfront : ds.takeWhile wellFormedReply <+: ds.filter wellFormedReply := by
      have hall : (ds.takeWhile wellFormedReply).filter wellFormedReply =
          ds.takeWhile wellFormedReply :=
        List.filter_eq_self.mpr fun _ => List.mem_takeWhile_imp
      refine ⟨(ds.dropWhile wellFormedReply).filter wellFormedReply, ?_⟩
      conv_rhs => rw [← List.takeWhile_append_dropWhile (p := wellFormedReply) (l := ds)]
      rw [List.filter_append, hall]
    have htake := List.prefix_iff_eq_take.mp ((List.take_prefix k _).trans hfront)
    rw [List.length_take, hmin, List.take_eq_take_min.symm] at htake
    rwa [htake] at h

/-- **The replies of all servers.** What is returned is all of the well-formed
replies up to the capacity exactly if as many come before the first malformed
one, or are waited for, as should be returned. -/
theorem obtainStatus_iff (w : Surroundings) (host : Option (List Byte))
    (stack : Slots InAddr maxNets) (fresh : ℕ → Mem × Reply) (arriving : List (List Byte))
    (cnt : ℕ) {sent : List InAddr} {servers : List (List Byte)}
    (h : statusrequest w host stack = some (true, sent))
    (hservers : serverNames w host = some servers) :
    (∃ replies, obtainStatus w host stack fresh arriving cnt = some (some replies) ∧
      List.Forall₂ DecodedAs ((arriving.filter wellFormedReply).take cnt) replies) ↔
      min (awaited servers.length cnt) (arriving.takeWhile wellFormedReply).length =
        min cnt (arriving.filter wellFormedReply).length := by
  have hcollect := collect_decoded fresh (awaited servers.length cnt) 0 arriving
  have hvalue : obtainStatus w host stack fresh arriving cnt =
      some (some (collect fresh (awaited servers.length cnt) 0 arriving)) := by
    rw [obtainStatus, h, hservers]
    rfl
  rw [← collected_iff hcollect, hvalue]
  constructor
  · rintro ⟨replies, heq, hreplies⟩
    rwa [← Option.some.inj (Option.some.inj heq)] at hreplies
  · exact fun hreplies => ⟨_, rfl, hreplies⟩

/-- Two servers in the environment, at addresses of their own. -/
def twoServers : Surroundings :=
  { env := some (text "xinu helios")
    inetAddr := fun _ => none
    gethostbyname := fun name => if name = text "xinu" then some 0x80D20301 else some 0x80D20302
    socket := true
    bind := true
    rcvbuf := true
    broadcast := true
    ifconf := none
    sent := fun _ => true }

/-- A reply without rows, and one of another version. -/
def noRows : List Byte := curVersion :: respOk :: List.replicate 68 0

def otherVersion : List Byte := 66 :: respOk :: List.replicate 68 0

/-- Memory with nothing in it. -/
def zeroed (_ : ℕ) : Mem × Reply := (fun _ => 0, ⟨0, 0, CharArray.zero _, CharArray.zero _, fun _ => 0⟩)

/-- Both servers answer. -/
theorem obtainStatus_both : ∃ replies,
    obtainStatus twoServers none (Slots.fresh InAddr maxNets) zeroed [noRows, noRows] 128 =
      some (some replies) ∧
    List.Forall₂ DecodedAs (([noRows, noRows].filter wellFormedReply).take 128) replies :=
  (obtainStatus_iff twoServers none _ zeroed [noRows, noRows] 128
    (show _ = some (true, [0x80D20301, 0x80D20302]) by decide)
    (show _ = some [text "xinu", text "helios"] by decide)).mpr (by decide)

/-- The reply of one is hidden by the other's, which has another version. -/
theorem obtainStatus_hidden : ¬∃ replies,
    obtainStatus twoServers none (Slots.fresh InAddr maxNets) zeroed [otherVersion, noRows] 128 =
      some (some replies) ∧
    List.Forall₂ DecodedAs (([otherVersion, noRows].filter wellFormedReply).take 128) replies := by
  rintro ⟨replies, heq, hreplies⟩
  have hcollect := collect_decoded zeroed 2 0 [otherVersion, noRows]
  have hnone : (([otherVersion, noRows].take 2).takeWhile wellFormedReply).length = 0 := by decide
  have hone : (([otherVersion, noRows].filter wellFormedReply).take 128).length = 1 := by decide
  obtain rfl : collect zeroed 2 0 [otherVersion, noRows] = replies :=
    Option.some.inj (Option.some.inj heq)
  rw [hreplies.length_eq, ← hcollect.length_eq, hnone] at hone
  exact absurd hone (by simp)

end XinuConsole.ObtainStatus
