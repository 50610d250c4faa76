import Mathlib.Data.Int.Notation
import Mathlib.Tactic.NormNum
import XinuConsole.Lib.Slots

/-!
`lib/netutils.c`: the broadcast of a datagram on all networks, `bnets` and
`bcastUDP`.

`bnets` goes through the interface records of the kernel and collects the
broadcast addresses in an array of its caller, which has room for 20. A store
outside the array has no result.
-/

namespace XinuConsole.Netutils

open Lib

/-- `struct in_addr`, in host order. -/
abbrev InAddr := UInt32

def inaddrAny : InAddr := 0

/-- The network number of an address, by its class. -/
def inetNetof (addr : InAddr) : UInt32 :=
  if addr < 0x80000000 then addr >>> 24
  else if addr < 0xC0000000 then addr >>> 16
  else addr >>> 8

def inetMakeaddr (net host : UInt32) : InAddr :=
  if net < 128 then (net <<< 24) ||| (host &&& 0xFFFFFF)
  else if net < 65536 then (net <<< 16) ||| (host &&& 0xFFFF)
  else if net < 16777216 then (net <<< 8) ||| (host &&& 0xFF)
  else net ||| host

def iffUp : UInt16 := 1
def iffBroadcast : UInt16 := 2
def afInet : UInt16 := 2

/-- `addrs[ 20 ]`. -/
@[simp] def maxNets : ℕ := 20

/-- An interface record, and what the kernel answers when it is asked for the
interface's flags and for its broadcast address; a query that fails is `none`. -/
structure Ifreq where
  family : UInt16
  addr : InAddr
  flags : Option UInt16
  brdaddr : Option InAddr
  deriving DecidableEq

/-- The loop of `bnets`. -/
def bnetsLoop : List Ifreq → ℕ → Slots InAddr maxNets → Option (ℕ × Slots InAddr maxNets)
  | [], i, addrs => some (i, addrs)
  | ifr :: ifrs, i, addrs =>
      match ifr.flags with
      | none => bnetsLoop ifrs i addrs
      | some flags =>
        if flags &&& iffBroadcast ≠ 0 ∧ flags &&& iffUp ≠ 0 ∧ ifr.family = afInet then
          match ifr.brdaddr with
          | none => do
            let addrs ← addrs.store i (inetMakeaddr (inetNetof ifr.addr) inaddrAny)
            bnetsLoop ifrs (i + 1) addrs
          | some brdaddr => do
            let addrs ← addrs.store i brdaddr
            bnetsLoop ifrs (i + 1) addrs
        else bnetsLoop ifrs i addrs

/-- `bnets`: the count and the array. Without the list of the interfaces
nothing is stored. -/
def bnets (ifconf : Option (List Ifreq)) (addrs : Slots InAddr maxNets) :
    Option (ℕ × Slots InAddr maxNets) :=
  match ifconf with
  | none => some (0, addrs)
  | some ifrs => bnetsLoop ifrs 0 addrs

/-- The loop of `bcastUDP` at its counter `i`, with `k` rounds to go: its result
and the addresses something was sent to. `sent i` says that `sendto` sent it all. -/
def sendLoop (addrs : Slots InAddr maxNets) (sent : ℕ → Bool) : ℕ → ℕ → Option (ℤ × List InAddr)
  | 0, i => some (i, [])
  | k + 1, i => do
      let addr ← addrs.load i
      if sent i = false then some (-1, [addr])
      else do
        let (rv, rest) ← sendLoop addrs sent k (i + 1)
        some (rv, addr :: rest)

/-- `bcastUDP`; `stack` is what its array holds at first. -/
def bcastUDP (setsockopt : Bool) (ifconf : Option (List Ifreq)) (stack : Slots InAddr maxNets)
    (sent : ℕ → Bool) : Option (ℤ × List InAddr) :=
  if setsockopt = false then some (-1, [])
  else do
    let (nets, addrs) ← bnets ifconf stack
    sendLoop addrs sent nets 0

/-! ### The addresses that are asked for -/

/-- The broadcast address of an IPv4 interface that is up and can broadcast, if
its flags can be read: the kernel's, or else the one of its network. -/
def broadcastAddr (ifr : Ifreq) : Option InAddr :=
  ifr.flags.bind fun flags =>
    if flags &&& iffBroadcast ≠ 0 ∧ flags &&& iffUp ≠ 0 ∧ ifr.family = afInet then
      some (ifr.brdaddr.getD (inetMakeaddr (inetNetof ifr.addr) inaddrAny))
    else none

def broadcastAddrs (ifrs : List Ifreq) : List InAddr := ifrs.filterMap broadcastAddr

/-- A round stores the address of its record, if there is one. -/
theorem bnetsLoop_cons (ifr : Ifreq) (ifrs : List Ifreq) (i : ℕ) (addrs : Slots InAddr maxNets) :
    bnetsLoop (ifr :: ifrs) i addrs =
      match broadcastAddr ifr with
      | none => bnetsLoop ifrs i addrs
      | some addr => (addrs.store i addr).bind (bnetsLoop ifrs (i + 1)) := by
  rw [bnetsLoop, broadcastAddr]
  cases ifr.flags with
  | none => rfl
  | some flags =>
      rw [Option.bind_some]
      dsimp only
      split
      · cases ifr.brdaddr <;> rfl
      · rfl

/-- The array holds the addresses `as` from the element `i` on, and has not
changed before. -/
structure Stored (addrs addrs' : Slots InAddr maxNets) (i : ℕ) (as : List InAddr) : Prop where
  kept : ∀ j, j < i → addrs'.load j = addrs.load j
  elems : ∀ j addr, as[j]? = some addr → addrs'.load (i + j) = some addr

theorem bnetsLoop_stored (ifrs : List Ifreq) (i : ℕ) (addrs : Slots InAddr maxNets)
    (h : i + (broadcastAddrs ifrs).length ≤ maxNets) :
    ∃ addrs', bnetsLoop ifrs i addrs = some (i + (broadcastAddrs ifrs).length, addrs') ∧
      Stored addrs addrs' i (broadcastAddrs ifrs) := by
  induction ifrs generalizing i addrs with
  | nil => exact ⟨addrs, rfl, fun _ _ => rfl, by simp [broadcastAddrs]⟩
  | cons ifr ifrs ih =>
      rw [bnetsLoop_cons]
      rw [broadcastAddrs, List.filterMap_cons] at h ⊢
      cases hifr : broadcastAddr ifr with
      | none =>
          rw [hifr] at h
          exact ih i addrs h
      | some addr =>
          simp only [hifr, List.length_cons] at h ⊢
          obtain ⟨addrs₁, hstore, hself, hother⟩ :=
            addrs.store_of_lt (show i < maxNets by omega) addr
          obtain ⟨addrs', hloop, hstored⟩ := ih (i + 1) addrs₁ (by rw [broadcastAddrs]; omega)
          rw [hstore, Option.bind_some, hloop]
          refine ⟨addrs', by rw [broadcastAddrs, Nat.add_right_comm, Nat.add_assoc], ?_, ?_⟩
          · intro j hj
            rw [hstored.kept j (by omega), hother j (by omega)]
          · intro j a ha
            cases j with
            | zero =>
                rw [Nat.add_zero, hstored.kept i (by omega), hself, ← ha, List.getElem?_cons_zero]
            | succ j =>
                rw [List.getElem?_cons_succ] at ha
                rw [show i + (j + 1) = i + 1 + j by omega]
                exact hstored.elems j a ha

/-- With too many addresses a store is outside the array. -/
theorem bnetsLoop_overflow (ifrs : List Ifreq) (i : ℕ) (addrs : Slots InAddr maxNets)
    (h : maxNets < i + (broadcastAddrs ifrs).length) (hi : i ≤ maxNets) :
    bnetsLoop ifrs i addrs = none := by
  induction ifrs generalizing i addrs with
  | nil =>
      rw [broadcastAddrs, List.filterMap_nil, List.length_nil] at h
      omega
  | cons ifr ifrs ih =>
      rw [bnetsLoop_cons]
      rw [broadcastAddrs, List.filterMap_cons] at h
      cases hifr : broadcastAddr ifr with
      | none =>
          rw [hifr] at h
          exact ih i addrs h hi
      | some addr =>
          simp only [hifr, List.length_cons] at h ⊢
          by_cases hlt : i < maxNets
          · obtain ⟨addrs₁, hstore, -⟩ := addrs.store_of_lt hlt addr
            rw [hstore, Option.bind_some]
            exact ih (i + 1) addrs₁ (by rw [broadcastAddrs]; omega) hlt
          · rw [Slots.store_eq_none _ (by omega)]
            rfl

/-- **The broadcast addresses.** `bnets` stays within the array of its caller
and fills it with the addresses, one for each interface, exactly when there are
at most 20 of them. -/
theorem bnets_iff (ifrs : List Ifreq) (addrs : Slots InAddr maxNets) :
    (∃ addrs', bnets (some ifrs) addrs = some ((broadcastAddrs ifrs).length, addrs') ∧
      ∀ j addr, (broadcastAddrs ifrs)[j]? = some addr → addrs'.load j = some addr) ↔
      (broadcastAddrs ifrs).length ≤ maxNets := by
  constructor
  · rintro ⟨addrs', hsome, -⟩
    by_contra hlt
    have hnone := bnetsLoop_overflow ifrs 0 addrs (by omega) (Nat.zero_le _)
    rw [bnets, hnone] at hsome
    exact absurd hsome (by simp)
  · intro hle
    obtain ⟨addrs', hsome, hstored⟩ := bnetsLoop_stored ifrs 0 addrs (by omega)
    refine ⟨addrs', by rw [bnets, hsome, Nat.zero_add], fun j addr hj => ?_⟩
    rw [← hstored.elems j addr hj, Nat.zero_add]

/-- A network card with the address 192.168.1.7, up and able to broadcast. -/
def eth : Ifreq := ⟨afInet, 0xC0A80107, some (iffUp ||| iffBroadcast), none⟩

example : broadcastAddrs [eth] = [0xC0A80100] := by decide

/-- The records of 21 such cards fit the buffer, but not the array. -/
theorem bnets_overflow : (List.replicate 21 eth).length * 40 ≤ 2000 ∧
    bnets (some (List.replicate 21 eth)) (Slots.fresh InAddr maxNets) = none := by
  refine ⟨by simp, bnetsLoop_overflow _ _ _ ?_ (Nat.zero_le _)⟩
  decide

theorem sendLoop_all {addrs : Slots InAddr maxNets} {sent : ℕ → Bool} (hsent : ∀ i, sent i = true)
    (i : ℕ) {as : List InAddr} (h : ∀ j addr, as[j]? = some addr → addrs.load (i + j) = some addr) :
    sendLoop addrs sent as.length i = some (((i + as.length : ℕ) : ℤ), as) := by
  induction as generalizing i with
  | nil => rfl
  | cons addr as ih =>
      have hrest := ih (i + 1) fun j a ha => by
        rw [← h (j + 1) a (by rwa [List.getElem?_cons_succ])]
        congr 1
        omega
      have hload : addrs.load i = some addr := h 0 addr rfl
      rw [List.length_cons, sendLoop, hload, Option.bind_eq_bind, Option.bind_some,
        if_neg (by simp [hsent]), hrest]
      rw [Option.bind_eq_bind, Option.bind_some, Nat.add_right_comm, Nat.add_assoc]

/-- `bcastUDP` sends to each of the addresses, if they fit and no call fails. -/
theorem bcastUDP_all {ifrs : List Ifreq} {sent : ℕ → Bool} (hsent : ∀ i, sent i = true)
    (stack : Slots InAddr maxNets) (h : (broadcastAddrs ifrs).length ≤ maxNets) :
    bcastUDP true (some ifrs) stack sent =
      some (((broadcastAddrs ifrs).length : ℤ), broadcastAddrs ifrs) := by
  obtain ⟨addrs', hbnets, helems⟩ := bnetsLoop_stored ifrs 0 stack (by omega)
  rw [bcastUDP, if_neg (by simp), bnets, hbnets, Option.bind_eq_bind, Option.bind_some]
  dsimp only
  rw [Nat.zero_add, sendLoop_all hsent 0 helems.elems, Nat.zero_add]

end XinuConsole.Netutils
