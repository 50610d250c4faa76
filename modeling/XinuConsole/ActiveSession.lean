import XinuConsole.Consoled.Lookup
import XinuConsole.IdleMinutes
import XinuConsole.ServerSearch

/-!
A session whose user goes on typing, on the clocks of xinu-console and of the
daemon: `keepalive` with its alarm, the touches on their way, and the daemon that
serves them among requests of anybody else.

The network loses no touch, and it takes at most `delay` seconds until a touch is
served; between two chunks of input at most `gap` seconds pass. Both are kept by
not letting the time go on before they are met.
-/

namespace XinuConsole.ActiveSession

open Lib ConnectUtils Consoled MakeConnection

@[simp] def secondsDelay : ℕ := 30

/-! ### The keep-alive clock -/

/-- `g_gotinput`, and the time for which `alarm` was called. -/
structure Clock where
  gotinput : Bool
  alarm : Option ℕ
  deriving DecidableEq

/-- The clock when `main` has set the alarm. -/
def Clock.main (now : ℕ) : Clock := ⟨false, some (now + secondsDelay)⟩

/-- `keepalive`, and whether it sends `g_req`. -/
def Clock.keepalive (now : ℕ) (c : Clock) : Clock × Bool :=
  (⟨false, some (now + secondsDelay)⟩, c.gotinput)

/-- The part of `flush2net` that the keep-alive sees. -/
def Clock.flush2net (c : Clock) : Clock := { c with gotinput := true }

/-- `resetSignals` and `setSignals` both turn the alarm off. -/
def Clock.resetSignals (c : Clock) : Clock := { c with alarm := none }

/-- Behind a suspension: `setSignals` and a new alarm. -/
def Clock.resume (now : ℕ) (c : Clock) : Clock :=
  { c.resetSignals with alarm := some (now + secondsDelay) }

/-! ### The session and the daemon -/

/-- What is fixed in a session: the request that `keepalive` sends, the number of the
row, its user, and the two times. -/
structure Setup where
  hostsCtl : Addr → List Byte → Bool
  touch : Request
  row : ℕ
  user : List Byte
  gap : ℕ
  delay : ℕ

/-- `typed` and `sent` are the times of the last input and of the last touch; touches
are named by the time they were sent at, `pending` is one that the daemon has
received and not served yet. -/
structure World where
  now : ℕ
  clock : Clock
  typed : ℕ
  sent : ℕ
  flight : List ℕ
  pending : Option ℕ
  machine : Machine

/-- The touches that are not served yet. -/
def World.transit (w : World) : List ℕ := w.flight ++ w.pending.toList

inductive Move
  | second
  | input
  | alarm
  | suspend
  | resume
  | deliver (sent : ℕ) (psa : Addr) (fx : List Effect)
  | daemon (l : Event × List Effect)

def World.afterAlarm (w : World) : World :=
  let (clock, sends) := w.clock.keepalive w.now
  if sends then { w with clock := clock, sent := w.now, flight := w.now :: w.flight }
  else { w with clock := clock }

/-- Serving a request takes up the touch that was received. -/
def Event.serves : Event → Bool
  | .serve _ _ _ => true
  | _ => false

inductive WStep (p : Setup) (w : World) : Move → World → Prop
  | second :
      w.now < w.typed + p.gap → (∀ t, w.clock.alarm = some t → w.now < t) →
      (∀ m ∈ w.transit, w.now < m + p.delay) → WStep p w .second { w with now := w.now + 1 }
  | input :
      w.clock.alarm ≠ none →
      WStep p w .input { w with clock := w.clock.flush2net, typed := w.now }
  | alarm : w.clock.alarm = some w.now → WStep p w .alarm w.afterAlarm
  | suspend :
      w.clock.alarm ≠ none → WStep p w .suspend { w with clock := w.clock.resetSignals }
  | resume :
      w.clock.alarm = none → WStep p w .resume { w with clock := w.clock.resume w.now }
  | deliver {sent : ℕ} {psa : Addr} {fx : List Effect} {machine : Machine} :
      sent ∈ w.flight → p.hostsCtl psa (Request.userString p.touch) = true →
      Step p.hostsCtl w.machine (.datagram psa p.touch.bytes, fx) machine →
      WStep p w (.deliver sent psa fx)
        { w with flight := w.flight.erase sent, pending := some sent, machine := machine }
  | daemon {l : Event × List Effect} {machine : Machine} :
      Step p.hostsCtl w.machine l machine →
      (∀ junk pid now, l.1 = .serve junk pid now → now = w.now) →
      WStep p w (.daemon l)
        { w with pending := if Event.serves l.1 then none else w.pending, machine := machine }

/-- The row of the session is held by its user. -/
def World.Holds (p : Setup) (w : World) (row : Condata) : Prop :=
  w.machine.config[p.row]? = some row ∧ row.conpid ≠ badPid ∧ row.userName = p.user

/-- A session that was just set up: the make request was served at most `gap` seconds
ago, and `main` has set the alarm. -/
structure Begins (p : Setup) (w : World) : Prop where
  clock : w.clock = Clock.main w.now
  typed : w.typed ≤ w.now ∧ w.now ≤ w.typed + p.gap
  sent : w.sent = w.typed
  transit : w.flight = [] ∧ w.pending = none
  made : ∀ row, w.Holds p row → row.contime = w.typed

/-! ### What every step keeps -/

/-- How old what the daemon knows can be. -/
structure Fresh (p : Setup) (table : List (List Byte × List Byte)) (w : World) : Prop where
  typed : w.typed ≤ w.now ∧ w.now ≤ w.typed + p.gap
  sent : w.sent ≤ w.now
  alarm : ∃ t, w.clock.alarm = some t ∧ w.now ≤ t ∧ t ≤ w.now + secondsDelay ∧
    (w.clock.gotinput = true → t ≤ w.sent + p.gap + secondsDelay)
  announced : w.clock.gotinput = false → w.typed ≤ w.sent
  transit : ∀ m ∈ w.transit, m ≤ w.now ∧ w.now ≤ m + p.delay
  pending : ∀ m, w.pending = some m → ∃ psa, w.machine.phase.request = some (psa, p.touch) ∧
    p.hostsCtl psa (Request.userString p.touch) = true
  names : names w.machine.config = table
  row : ∀ row, w.Holds p row → row.contime ≤ w.now ∧
    (w.transit = [] → (w.sent : ℤ) ≤ row.contime) ∧
    (w.transit ≠ [] → ∃ m ∈ w.transit, (m : ℤ) ≤ row.contime + p.gap + secondsDelay)

section Steps

variable {p : Setup} {table : List (List Byte × List Byte)} {w w' : World}

/-- The last touch was sent at most that long ago. -/
theorem Fresh.since_sent (h : Fresh p table w) : w.now ≤ w.sent + p.gap + secondsDelay := by
  obtain ⟨t, -, hle, -, hgot⟩ := h.alarm
  cases hinput : w.clock.gotinput with
  | false =>
      have := h.announced hinput
      have := h.typed.2
      omega
  | true =>
      have := hgot hinput
      omega

/-- **The age of the row.** -/
theorem Fresh.age (h : Fresh p table w) {row : Condata} (hrow : w.Holds p row) :
    row.contime ≤ w.now ∧ w.now - row.contime ≤ p.gap + secondsDelay + p.delay := by
  obtain ⟨hle, hnone, hsome⟩ := h.row row hrow
  refine ⟨hle, ?_⟩
  by_cases htransit : w.transit = []
  · have := hnone htransit
    have := h.since_sent
    omega
  · obtain ⟨m, hm, hmle⟩ := hsome htransit
    have := (h.transit m hm).2
    omega

theorem Fresh.second (h : Fresh p table w) (hgap : w.now < w.typed + p.gap)
    (halarm : ∀ t, w.clock.alarm = some t → w.now < t)
    (hdelay : ∀ m ∈ w.transit, w.now < m + p.delay) :
    Fresh p table { w with now := w.now + 1 } where
  typed := ⟨by have := h.typed.1; simp only; omega, hgap⟩
  sent := by have := h.sent; simp only; omega
  alarm := by
    obtain ⟨t, ht, -, hle, hgot⟩ := h.alarm
    exact ⟨t, ht, halarm t ht, by simp only; omega, hgot⟩
  announced := h.announced
  transit m hm := ⟨by have := (h.transit m hm).1; simp only; omega, hdelay m hm⟩
  pending := h.pending
  names := h.names
  row row hrow := by
    obtain ⟨hle, hrest⟩ := h.row row hrow
    exact ⟨by push_cast; omega, hrest⟩

theorem Fresh.input (h : Fresh p table w) :
    Fresh p table { w with clock := w.clock.flush2net, typed := w.now } where
  typed := ⟨le_rfl, Nat.le_add_right _ _⟩
  sent := h.sent
  alarm := by
    obtain ⟨t, ht, hnow, hle, hgot⟩ := h.alarm
    refine ⟨t, ht, hnow, hle, fun _ => ?_⟩
    cases hinput : w.clock.gotinput with
    | false =>
        -- the input before this one was announced
        have := h.announced hinput
        have := h.typed.2
        simp only
        omega
    | true => exact hgot hinput
  announced hinput := absurd hinput (by simp [Clock.flush2net])
  transit := h.transit
  pending := h.pending
  names := h.names
  row := h.row

theorem Fresh.afterAlarm (h : Fresh p table w) : Fresh p table w.afterAlarm := by
  have hsince := h.since_sent
  have hclock {sent : ℕ} : ∃ t, (w.clock.keepalive w.now).1.alarm = some t ∧ w.now ≤ t ∧
      t ≤ w.now + secondsDelay ∧ ((w.clock.keepalive w.now).1.gotinput = true →
        t ≤ sent + p.gap + secondsDelay) :=
    ⟨w.now + secondsDelay, rfl, Nat.le_add_right _ _, le_rfl, fun hgot => absurd hgot (by
      simp [Clock.keepalive])⟩
  cases hinput : w.clock.gotinput with
  | false =>
      have hw : w.afterAlarm = { w with clock := (w.clock.keepalive w.now).1 } := by
        simp [World.afterAlarm, Clock.keepalive, hinput]
      rw [hw]
      exact ⟨h.typed, h.sent, hclock, fun _ => h.announced hinput, h.transit, h.pending, h.names,
        h.row⟩
  | true =>
      have hw : w.afterAlarm = { w with
          clock := (w.clock.keepalive w.now).1, sent := w.now, flight := w.now :: w.flight } := by
        simp [World.afterAlarm, Clock.keepalive, hinput]
      rw [hw]
      refine ⟨h.typed, le_rfl, hclock, fun _ => h.typed.1, fun m hm => ?_, h.pending, h.names,
        fun row hrow => ?_⟩
      · rcases List.mem_cons.mp hm with rfl | hm
        · exact ⟨le_rfl, Nat.le_add_right _ _⟩
        · exact h.transit m hm
      · obtain ⟨hle, hnone, hsome⟩ := h.row row hrow
        refine ⟨hle, fun hnil => absurd hnil (List.cons_ne_nil _ _), fun _ => ?_⟩
        by_cases htransit : w.transit = []
        · have := hnone htransit
          exact ⟨w.now, List.mem_cons_self, by omega⟩
        · obtain ⟨m, hm, hmle⟩ := hsome htransit
          exact ⟨m, List.mem_cons_of_mem _ hm, hmle⟩

/-- A request that waits is not received again. -/
theorem request_of_waiting {m m' : Machine} {hostsCtl : Addr → List Byte → Bool}
    {l : Event × List Effect} (hs : Step hostsCtl m l m') (hserve : Event.serves l.1 = false)
    {psa : Addr} {req : Request} (hreq : m.phase.request = some (psa, req)) :
    m'.phase.request = some (psa, req) := by
  cases hs.cases with
  | exits pid => exact hreq
  | received e fx pending hphase =>
      rw [hphase] at hreq
      exact absurd hreq (by simp [Phase.request])
  | wait3 => exact hreq
  | noneDead pending hphase =>
      rw [hphase] at hreq
      cases pending with
      | none => exact absurd hreq (by simp [Phase.request])
      | some got =>
          obtain rfl := Option.some.inj hreq
          rfl
  | serve => exact absurd hserve (by simp [Event.serves])

/-- What is served is the request that was received. -/
theorem serving_of_request {m m' : Machine} {hostsCtl : Addr → List Byte → Bool} {junk : Reply}
    {pid now : ℤ} {fx : List Effect} (hs : Step hostsCtl m (.serve junk pid now, fx) m') {psa : Addr}
    {req : Request} (hreq : m.phase.request = some (psa, req)) : m.phase = .serving psa req := by
  cases hs.cases with
  | received e fx pending _ _ _ he => exact absurd he (by simp)
  | serve _ _ _ psa' req' r hphase =>
      rw [hphase] at hreq ⊢
      obtain ⟨rfl, rfl⟩ := Prod.mk.inj (Option.some.inj hreq)
      rfl

/-- What a step does to the time of a row that is held behind it. -/
theorem row_of_step {m m' : Machine} {hostsCtl : Addr → List Byte → Bool}
    {l : Event × List Effect} (hs : Step hostsCtl m l m') {i : ℕ} {row' : Condata}
    (hrow' : m'.config[i]? = some row') (hheld : row'.conpid ≠ badPid) :
    m.config[i]? = some row' ∨ ∃ junk pid now, l.1 = .serve junk pid now ∧ row'.contime = now := by
  have hlt : i < m.config.length := by
    rw [← hs.config_length]
    exact (List.getElem?_eq_some_iff.mp hrow').1
  have hrow := List.getElem?_eq_getElem hlt
  obtain ⟨row₁, hrow₁, hstep⟩ := hs.row hrow
  obtain rfl : row₁ = row' := Option.some.inj (hrow₁.symm.trans hrow')
  cases hstep with
  | same => exact .inl hrow
  | freed => exact absurd (freeRow_self _).1 hheld
  | touched junk pid now => exact .inr ⟨junk, pid, now, rfl, rfl⟩
  | made junk pid now => exact .inr ⟨junk, pid, now, rfl, rfl⟩

/-- A step of the daemon that serves nothing changes no time. -/
theorem Fresh.quiet (h : Fresh p table w) {l : Event × List Effect} {machine : Machine}
    (hs : Step p.hostsCtl w.machine l machine) (hserve : Event.serves l.1 = false) {flight : List ℕ}
    {pending : Option ℕ} (hmem : ∀ m, m ∈ flight ++ pending.toList ↔ m ∈ w.transit)
    (hpending : ∀ m, pending = some m → ∃ psa, machine.phase.request = some (psa, p.touch) ∧
      p.hostsCtl psa (Request.userString p.touch) = true) :
    Fresh p table { w with flight := flight, pending := pending, machine := machine } where
  typed := h.typed
  sent := h.sent
  alarm := h.alarm
  announced := h.announced
  transit m hm := h.transit m ((hmem m).mp hm)
  pending := hpending
  names := hs.names.trans h.names
  row row hrow := by
    have hold : w.machine.config[p.row]? = some row := by
      rcases row_of_step hs hrow.1 hrow.2.1 with hold | ⟨junk, pid, now, hl, -⟩
      · exact hold
      · exact absurd hserve (by simp [hl, Event.serves])
    obtain ⟨hle, hnone, hsome⟩ := h.row row ⟨hold, hrow.2⟩
    have hnil : flight ++ pending.toList = [] ↔ w.transit = [] := by
      simp only [List.eq_nil_iff_forall_not_mem, hmem]
    refine ⟨hle, fun htransit => hnone (hnil.mp htransit), fun htransit => ?_⟩
    obtain ⟨m, hm, hmle⟩ := hsome fun hempty => htransit (hnil.mpr hempty)
    exact ⟨m, (hmem m).mpr hm, hmle⟩

/-- A row whose time is the present one is fresh. -/
theorem row_now {now sent : ℕ} {transit : List ℕ} {row : Condata} (gap : ℕ)
    (htime : row.contime = now) (hsent : sent ≤ now) (htransit : ∀ m ∈ transit, m ≤ now) :
    row.contime ≤ now ∧ (transit = [] → (sent : ℤ) ≤ row.contime) ∧
      (transit ≠ [] → ∃ m ∈ transit, (m : ℤ) ≤ row.contime + gap + secondsDelay) := by
  refine ⟨htime.le, fun _ => by omega, fun hne => ?_⟩
  obtain ⟨m, hm⟩ := List.exists_mem_of_ne_nil _ hne
  have := htransit m hm
  exact ⟨m, hm, by omega⟩

/-- A step that serves a request: the touch, if one was received, reaches the row. -/
theorem Fresh.serve (h : Fresh p table w) {d : Daemon}
    (hrefresh : Refreshes p.touch d p.row p.user) (htable : table = Consoled.names d.config)
    {junk : Reply} {pid : ℤ} {fx : List Effect} {machine : Machine}
    (hs : Step p.hostsCtl w.machine (.serve junk pid w.now, fx) machine) :
    Fresh p table { w with pending := none, machine := machine } where
  typed := h.typed
  sent := h.sent
  alarm := h.alarm
  announced := h.announced
  transit m hm := h.transit m (by simp [World.transit] at hm ⊢; exact .inl hm)
  pending m hm := absurd hm (by simp)
  names := hs.names.trans h.names
  row row hrow := by
    have hnow (htime : row.contime = w.now) :
        row.contime ≤ w.now ∧ (w.flight = [] → (w.sent : ℤ) ≤ row.contime) ∧
          (w.flight ≠ [] → ∃ m ∈ w.flight, (m : ℤ) ≤ row.contime + p.gap + secondsDelay) :=
      row_now p.gap htime h.sent fun m hm => (h.transit m (List.mem_append_left _ hm)).1
    have htransit : World.transit { w with pending := none, machine := machine } = w.flight := by
      simp [World.transit]
    rw [htransit]
    rcases row_of_step hs hrow.1 hrow.2.1 with hold | ⟨junk', pid', now', hl, htime⟩
    · cases hpending : w.pending with
      | none =>
          obtain ⟨hle, hrest⟩ := h.row row ⟨hold, hrow.2⟩
          have hsame : w.transit = w.flight := by simp [World.transit, hpending]
          rw [hsame] at hrest
          exact ⟨hle, hrest⟩
      | some m =>
          obtain ⟨psa, hreq, hctl⟩ := h.pending m hpending
          obtain ⟨-, r, rfl, -, rfl, -⟩ := hs.served (serving_of_request hs hreq)
          have hconfig := hrefresh w.machine.daemon row (h.names.trans htable) hold hrow.2.1 hrow.2.2
            p.hostsCtl psa junk pid w.now hctl
          -- the row behind the step is the row with the new time
          have hafter := hrow.1
          simp only [Machine.config] at hafter hold
          rw [hconfig, List.getElem?_modify_eq, hold] at hafter
          exact hnow (congrArg Condata.contime (Option.some.inj hafter)).symm
    · obtain ⟨-, -, rfl⟩ := Event.serve.inj hl
      exact hnow htime

/-- The daemon receives when it has served what it received before. -/
theorem Fresh.pending_of_datagram (h : Fresh p table w) {psa : Addr} {dgram : List Byte}
    {fx : List Effect} {machine : Machine}
    (hs : Step p.hostsCtl w.machine (.datagram psa dgram, fx) machine) : w.pending = none := by
  cases hpending : w.pending with
  | none => rfl
  | some m =>
      obtain ⟨psa', hreq, -⟩ := h.pending m hpending
      cases hs.cases with
      | received e fx pending hphase =>
          rw [hphase] at hreq
          exact absurd hreq (by simp [Phase.request])

theorem Fresh.step (h : Fresh p table w) {d : Daemon} (hrefresh : Refreshes p.touch d p.row p.user)
    (htable : table = Consoled.names d.config) {move : Move} (hmove : move ≠ .suspend)
    (hs : WStep p w move w') : Fresh p table w' := by
  cases hs with
  | second hgap halarm hdelay => exact h.second hgap halarm hdelay
  | input => exact h.input
  | alarm => exact h.afterAlarm
  | suspend => exact absurd rfl hmove
  | resume hnone =>
      obtain ⟨t, ht, -⟩ := h.alarm
      rw [hnone] at ht
      exact absurd ht (by simp)
  | @deliver sent psa fx machine hflight hctl hs =>
      have hnone := h.pending_of_datagram hs
      refine h.quiet hs rfl (fun m => ?_) fun m _ => ⟨psa, ?_, hctl⟩
      · simp only [World.transit, hnone, Option.toList_none, List.append_nil, Option.toList_some,
          List.mem_append, List.mem_singleton]
        by_cases hm : m = sent
        · subst hm
          exact iff_of_true (.inr rfl) hflight
        · rw [List.mem_erase_of_ne hm]
          exact ⟨fun hmem => hmem.resolve_right hm, .inl⟩
      · rw [hs.phase_datagram]
        rfl
  | @daemon l machine hs hclock =>
      obtain ⟨e, fx⟩ := l
      cases hserve : Event.serves e with
      | true =>
          cases e with
          | serve junk pid now =>
              obtain rfl := hclock junk pid now rfl
              exact h.serve hrefresh htable hs
          | _ => exact absurd hserve (by simp [Event.serves])
      | false =>
          rw [if_neg (by simp)]
          refine h.quiet hs hserve (fun m => Iff.rfl) fun m hm => ?_
          obtain ⟨psa, hreq, hctl⟩ := h.pending m hm
          exact ⟨psa, request_of_waiting hs hserve hreq, hctl⟩

theorem Begins.fresh (h : Begins p w) : Fresh p (Consoled.names w.machine.config) w where
  typed := h.typed
  sent := h.sent.trans_le h.typed.1
  alarm := by
    rw [h.clock]
    exact ⟨w.now + secondsDelay, rfl, Nat.le_add_right _ _, le_rfl, fun hgot => absurd hgot (by
      simp [Clock.main])⟩
  announced _ := h.sent.ge
  transit m hm := absurd hm (by simp [World.transit, h.transit.1, h.transit.2])
  pending m hm := absurd hm (by simp [h.transit.2])
  names := rfl
  row row hrow := by
    have hmade := h.made row hrow
    have hle := h.typed.1
    have hempty : w.transit = [] := by simp [World.transit, h.transit.1, h.transit.2]
    refine ⟨by omega, fun _ => by rw [hmade, h.sent], fun hne => absurd hempty hne⟩

/-! ### Runs -/

/-- Time goes on until something is due. -/
theorem run_seconds {n : ℕ} (hgap : w.now + n ≤ w.typed + p.gap)
    (halarm : ∀ t, w.clock.alarm = some t → w.now + n ≤ t)
    (hdelay : ∀ m ∈ w.transit, w.now + n ≤ m + p.delay) :
    Run (WStep p) w (List.replicate n .second) { w with now := w.now + n } := by
  induction n with
  | zero => exact .nil _
  | succ n ih =>
      have hrun := ih (by omega) (fun t ht => by have := halarm t ht; omega)
        fun m hm => by have := hdelay m hm; omega
      rw [List.replicate_succ']
      refine hrun.snoc (.second ?_ (fun t ht => ?_) fun m hm => ?_)
      · show w.now + n < w.typed + p.gap
        omega
      · exact halarm t ht
      · exact hdelay m hm

/-- A touch that reaches a daemon with no child to collect is served. -/
theorem run_served {d : Daemon} (hrefresh : Refreshes p.touch d p.row p.user)
    (hnames : Consoled.names w.machine.config = Consoled.names d.config)
    (hphase : w.machine.phase = .waiting) (halive : ∀ c ∈ w.machine.children, c.dead = false)
    {sent : ℕ} (hsent : sent ∈ w.flight) {psa : Addr}
    (hctl : p.hostsCtl psa (Request.userString p.touch) = true) {row : Condata}
    (hrow : w.Holds p row) (junk : Reply) :
    ∃ fx fx' machine, Run (WStep p) w [.deliver sent psa fx, .daemon (.noneDead, []),
        .daemon (.serve junk (-1) w.now, fx')]
          { w with flight := w.flight.erase sent, pending := none, machine := machine } ∧
      World.Holds p { w with machine := machine } { row with contime := w.now } := by
  let r := processRequest p.hostsCtl junk (-1) w.now w.machine.daemon psa p.touch
  let served : Machine := ⟨r.1, w.machine.children ++ newChildren r.2, .waiting⟩
  have hconfig : r.1.config = w.machine.config.modify p.row fun row =>
      { row with contime := (w.now : ℤ) } :=
    hrefresh w.machine.daemon row hnames hrow.1 hrow.2.1 hrow.2.2 p.hostsCtl psa junk (-1) w.now hctl
  refine ⟨_, r.2, served, .cons (.deliver hsent hctl (step_datagram hphase psa p.touch))
    (.cons (.daemon (step_noneDead halive (some (psa, p.touch))) ?_)
      (.single (.daemon (step_serve (.inl rfl) junk w.now) ?_))), ?_, hrow.2.1, hrow.2.2⟩
  · intro junk' pid now hclock
    cases hclock
  · intro junk' pid now hclock
    cases hclock
    rfl
  · show r.1.config[p.row]? = _
    rw [hconfig, List.getElem?_modify_eq, hrow.1]
    rfl

end Steps

/-! ### The reservation of an active user -/

/-- A row that is not older than the reservation time is no candidate for a thief. -/
theorem not_candidate {now : ℤ} {row : Condata} (hheld : row.conpid ≠ badPid)
    (hle : row.contime ≤ now) (hage : now - row.contime < reserveTime * 60) :
    ¬ServerSearch.Candidate true (rowRecord now row) := by
  have htime : (rowRecord now row).contime = renderTime (now - row.contime) := by
    have hint : int32 (now - row.contime) = now - row.contime :=
      int32_of_range (by omega) (by simp only [reserveTime] at hage; omega)
    simp only [rowRecord, if_neg hheld, hint]
  rintro (hfree | ⟨-, minutes, hminutes, hlong⟩)
  · simp [rowRecord, hheld] at hfree
  · rw [htime] at hminutes
    obtain ⟨e, he⟩ := Int.eq_ofNat_of_zero_le (show 0 ≤ now - row.contime by omega)
    simp only [reserveTime] at hage
    rw [he, IdleMinutes.getMinutes_renderTime_natCast (by omega)] at hminutes
    obtain rfl := Option.some.inj hminutes
    simp only [reserveTime] at hlong
    omega

/-- **An active session is safe.** The session begins with a row that was made at most
`gap` seconds ago, and its touches name that row and are let in. If its user, who does
not suspend the console, types at least every `gap` seconds, and touches are served
within `delay`, then at every moment the row was touched at most `gap + 30 + delay`
seconds ago, whatever requests others send. If that is less than the reservation time,
no client that asks for the status finds the session ready to be stolen. -/
theorem active_session_safe {p : Setup} {w₀ w : World} (hbegin : Begins p w₀)
    (hrefresh : Refreshes p.touch w₀.machine.daemon p.row p.user) {moves : List Move}
    (hrun : Run (WStep p) w₀ moves w) (hmoves : ∀ move ∈ moves, move ≠ .suspend) {row : Condata}
    (hrow : w.Holds p row) :
    w.now - row.contime ≤ p.gap + secondsDelay + p.delay ∧
      (p.gap + secondsDelay + p.delay < reserveTime * 60 →
        ¬ServerSearch.Candidate true (rowRecord w.now row)) := by
  have hfresh : Fresh p (Consoled.names w₀.machine.config) w :=
    hrun.invariant_of_labels (I := fun _ => True)
      (J := Fresh p (Consoled.names w₀.machine.config)) (P := fun move => move ≠ .suspend)
      (fun _ _ _ _ _ => trivial)
      (fun _ _ _ _ hJ hmove hs => hJ.step hrefresh rfl hmove hs) hmoves trivial hbegin.fresh
  obtain ⟨hle, hage⟩ := hfresh.age hrow
  exact ⟨hage, fun hshort => not_candidate hrow.2.1 hle (hage.trans_lt hshort)⟩

/-- What `makeConnection` left in ann's buffers. -/
def annBuffers : Buffers :=
  ⟨some ((CharArray.zero _).strncpy (text "argo") maxConnectionName),
    some ((CharArray.zero _).strncpy defaultClassName maxClassName),
    some ((CharArray.zero _).strncpy (text "xinu") maxHostName)⟩

/-- Ann's session on `argo`; a minute without input is allowed. -/
def annSetup : Setup :=
  ⟨noWrappers, touchRequest zeroRequest (text "ann") annBuffers, 0, text "ann", 60, 5⟩

def annWorld : World :=
  ⟨100, Clock.main 100, 100, 100, [], none, { sampleMachine with
    daemon := { sampleMachine.daemon with config := [lockRow 7 100 (text "ann") argo, brig] } }⟩

theorem begins_annWorld : Begins annSetup annWorld := by
  refine ⟨rfl, by decide, rfl, ⟨rfl, rfl⟩, fun row hrow => ?_⟩
  obtain rfl := Option.some.inj hrow.1
  rfl

/-- Her touches name her row. -/
theorem refreshes_annWorld :
    Refreshes annSetup.touch annWorld.machine.daemon annSetup.row annSetup.user := by
  have haddr : Addresses annWorld.machine.daemon
      (initRequest zeroRequest (text "ann") reqMakeConnection (some (text "argo"))
        (some defaultClassName)) 0 (lockRow 7 100 (text "ann") argo) := ⟨by decide, rfl⟩
  have hnames : NamesRow annBuffers (lockRow 7 100 (text "ann") argo) (text "xinu") :=
    ⟨⟨_, rfl, by decide⟩, ⟨_, rfl, by decide⟩, ⟨_, rfl, by decide⟩⟩
  exact refreshes_of_names haddr hnames

/-- She types something, the alarm sends a touch, and twenty seconds ago it was served. -/
theorem active_session_safe_ann :
    ∃ fx fx' w, Run (WStep annSetup) annWorld
        (.input :: (List.replicate 30 .second ++ (.alarm :: ([.deliver 130 sampleAddr fx,
          .daemon (.noneDead, []), .daemon (.serve zeroReply (-1) 130, fx')] ++
          List.replicate 20 .second)))) w ∧
      w.now = 150 ∧ w.Holds annSetup (lockRow 7 130 (text "ann") argo) ∧
      ¬ServerSearch.Candidate true (rowRecord w.now (lockRow 7 130 (text "ann") argo)) := by
  let typed : World := { annWorld with clock := annWorld.clock.flush2net, typed := 100 }
  let sent : World := World.afterAlarm { typed with now := 130 }
  have halarm : Run (WStep annSetup) typed (List.replicate 30 .second)
      { typed with now := 130 } := by
    refine run_seconds (by decide) (fun t ht => ?_) nofun
    obtain rfl := Option.some.inj ht
    exact le_rfl
  have hheld : sent.Holds annSetup (lockRow 7 100 (text "ann") argo) :=
    ⟨rfl, by decide, by decide⟩
  have halive : ∀ c ∈ sent.machine.children, c.dead = false := nofun
  have hctl : annSetup.hostsCtl sampleAddr (Request.userString annSetup.touch) = true := rfl
  obtain ⟨fx, fx', machine, hserved, hrow⟩ := run_served (w := sent) refreshes_annWorld rfl rfl
    halive List.mem_cons_self hctl hheld zeroReply
  let touched : World := { sent with flight := [], machine := machine }
  have hlater : Run (WStep annSetup) touched (List.replicate 20 .second)
      { touched with now := 150 } := by
    have hgap : 130 + 20 ≤ 100 + annSetup.gap := by decide
    refine run_seconds hgap (fun t ht => ?_) nofun
    obtain rfl := Option.some.inj ht
    show 130 + 20 ≤ 130 + secondsDelay
    decide
  have hrun := Run.cons (.input (by decide)) (halarm.append
    (.cons (.alarm rfl) (hserved.append hlater)))
  have hsafe := active_session_safe begins_annWorld refreshes_annWorld hrun (by simp) hrow
  exact ⟨fx, fx', _, hrun, rfl, hrow, hsafe.2 (by decide)⟩

end XinuConsole.ActiveSession
