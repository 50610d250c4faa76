import Mathlib.Logic.Function.Basic
import XinuConsole.Powerd.Commands

/-!
The cache of the power daemon and the outlets it stands for.

A plant is the daemon with the power controller, which obeys every line that
was written to it completely. The numbers of the command language run from 1 to
`NUM_OUTLETS` while the array has the elements 0 to `NUM_OUTLETS - 1`, and
`execute_command` indexes it by the number: outlet `NUM_OUTLETS` has no element.
-/

namespace XinuConsole.Powerd

open Lib

/-- The controller obeys a line: `off all`, `off n` or `on n`. -/
def obey (outlet : ℕ → Bool) (line : List Byte) : ℕ → Bool :=
  if line.take 4 = text "off " then
    if line.drop 4 = text "all\r\n" then fun _ => false
    else Function.update outlet (atoi (line.drop 4)).toNat false
  else if line.take 3 = text "on " then
    Function.update outlet (atoi (line.drop 3)).toNat true
  else outlet

/-- The outlets after a list of writes. -/
def obeyAll (outlet : ℕ → Bool) (ws : List Write) : ℕ → Bool :=
  ws.foldl (fun outlet w => if w.Complete then obey outlet w.line else outlet) outlet

/-- The daemon and the outlets of its controller. -/
structure Plant where
  daemon : State
  outlet : ℕ → Bool

/-- A command and what the system answers while it is executed. -/
structure Turn where
  cmd : List Byte
  answers : Answers

def Plant.turn (p : Plant) (t : Turn) : Option (Plant × List Write) :=
  (executeCommand t.answers p.daemon t.cmd).map fun r => (⟨r.2.1, obeyAll p.outlet r.2.2⟩, r.2.2)

/-- The plant after `init_device` opened the line and wrote to it. -/
def Started (p : Plant) : Prop :=
  ∃ a s outlet, a.openTTYLine ≠ -1 ∧ (∀ w ∈ (initDevice a s).2.2, w.Complete) ∧
    p = ⟨(initDevice a s).2.1, obeyAll outlet (initDevice a s).2.2⟩

/-- Every outlet is in the state the cache says. One that has no element counts
as off, the state `init_device` leaves it in. -/
def Coherent (p : Plant) : Prop :=
  ∀ n, 1 ≤ n → n ≤ numOutlets → (p.daemon.outlets.val[n]?).getD off = if p.outlet n then on else off

/-- The outlets are in the state that a command asks for. -/
def Commanded (outlet : ℕ → Bool) : Command → Prop
  | .allOff => ∀ n, 1 ≤ n → n ≤ numOutlets → outlet n = false
  | .down n => outlet n = false
  | .up n | .reset n => outlet n = true

/-- Every command of the run accesses elements of `outlets` only, and leaves
the cache in step and the outlets in the state it asks for. -/
def CoherentRun : Plant → List Turn → Prop
  | _, [] => True
  | p, t :: ts => ∃ p' ws, p.turn t = some (p', ws) ∧ Coherent p' ∧
      (∀ c, parse t.cmd = some c → Commanded p'.outlet c) ∧ CoherentRun p' ts

/-- Every write of the run is complete. -/
def WritesSucceed : Plant → List Turn → Prop
  | _, [] => True
  | p, t :: ts => ∀ p' ws, p.turn t = some (p', ws) →
      (∀ w ∈ ws, w.Complete) ∧ WritesSucceed p' ts

/-- The command does not name the last outlet, and it is no `off` that fails to
reopen the line while an outlet is on. -/
def Safe (p : Plant) (t : Turn) : Prop :=
  (∀ c, parse t.cmd = some c → c.outlet ≠ some numOutlets) ∧
    (parse t.cmd = some .allOff → t.answers.openTTYLine = -1 →
      ∀ n, 1 ≤ n → n ≤ numOutlets → p.outlet n = false)

def SafeRun : Plant → List Turn → Prop
  | _, [] => True
  | p, t :: ts => Safe p t ∧ ∀ p' ws, p.turn t = some (p', ws) → SafeRun p' ts

/-! ### The controller on the daemon's lines -/

theorem decimal_ne_all (n : ℕ) : decimal n ++ text "\r\n" ≠ text "all\r\n" := by
  intro h
  have hmem : (97 : Byte) ∈ decimal n := by
    obtain ⟨d, ds, hd⟩ := List.exists_cons_of_ne_nil (decimal_ne_nil n)
    rw [hd] at h ⊢
    have : d = 97 := (List.cons.inj h).1
    simp [this]
  exact absurd (isDigit_of_mem_decimal hmem) (by decide)

theorem obey_off (outlet : ℕ → Bool) (n : ℕ) :
    obey outlet (text "off " ++ fmtD n ++ text "\r\n") = Function.update outlet n false := by
  have htake : (text "off " ++ fmtD n ++ text "\r\n").take 4 = text "off " := rfl
  have hdrop : (text "off " ++ fmtD n ++ text "\r\n").drop 4 = decimal n ++ text "\r\n" := by
    rw [fmtD_natCast]
    rfl
  rw [obey, if_pos htake, hdrop, if_neg (decimal_ne_all n), atoi_decimal n rfl, Int.toNat_natCast]

theorem obey_on (outlet : ℕ → Bool) (n : ℕ) :
    obey outlet (text "on " ++ fmtD n ++ text "\r\n") = Function.update outlet n true := by
  have htake : (text "on " ++ fmtD n ++ text "\r\n").take 4 ≠ text "off " := by
    intro h
    exact absurd (congrArg (fun l => l.getD 1 0) h) (by simp [text])
  have htake' : (text "on " ++ fmtD n ++ text "\r\n").take 3 = text "on " := rfl
  have hdrop : (text "on " ++ fmtD n ++ text "\r\n").drop 3 = decimal n ++ text "\r\n" := by
    rw [fmtD_natCast]
    rfl
  rw [obey, if_neg htake, if_pos htake', hdrop, atoi_decimal n rfl, Int.toNat_natCast]

/-! ### The cache -/

theorem State.load_natCast (s : State) (n : ℕ) : s.load n = s.outlets.val[n]? := by
  simp [State.load]

theorem State.store_natCast (s : State) {n : ℕ} (h : n < numOutlets) (b : Byte) :
    s.store n b = some { s with outlets := s.outlets.set n b } := by
  have h' : (n : ℤ) < numOutlets := by exact_mod_cast h
  simp only [State.store, h', Int.natCast_nonneg, and_self, if_true, Int.toNat_natCast]

/-- A number outside the array has no element to load or to store. -/
theorem State.load_of_ge (s : State) {n : ℕ} (h : numOutlets ≤ n) : s.load n = none := by
  rw [State.load_natCast, List.getElem?_eq_none_iff, s.outlets.property]
  exact h

theorem State.store_of_ge (s : State) {n : ℕ} (h : numOutlets ≤ n) (b : Byte) :
    s.store n b = none := by
  have h' : ¬(n : ℤ) < numOutlets := by exact_mod_cast Nat.not_lt.mpr h
  simp only [State.store, h', and_false, if_false]

namespace Coherent

variable {p : Plant}

theorem load_eq (h : Coherent p) {n : ℕ} (h₁ : 1 ≤ n) (hn : n < numOutlets) :
    p.daemon.load n = some (if p.outlet n then on else off) := by
  have hlt : n < p.daemon.outlets.val.length := by rwa [p.daemon.outlets.property]
  have := h n h₁ hn.le
  rw [List.getElem?_eq_getElem hlt, Option.getD_some] at this
  rw [State.load_natCast, List.getElem?_eq_getElem hlt, this]

/-- Cache and outlet change together. -/
theorem update (h : Coherent p) {n : ℕ} (hn : n < numOutlets) (b : Bool) (gDev : ℤ) :
    Coherent ⟨⟨p.daemon.outlets.set n (if b then on else off), gDev⟩,
      Function.update p.outlet n b⟩ := by
  intro k h₁ hk
  show ((p.daemon.outlets.val.set n (if b then on else off))[k]?).getD off =
    if Function.update p.outlet n b k then on else off
  by_cases hkn : n = k
  · subst hkn
    rw [List.getElem?_set_self (by rwa [p.daemon.outlets.property]), Function.update_self,
      Option.getD_some]
  · rw [List.getElem?_set_ne hkn, Function.update_of_ne (Ne.symm hkn)]
    exact h k h₁ hk

end Coherent

theorem coherent_cleared (gDev : ℤ) {outlet : ℕ → Bool}
    (h : ∀ n, 1 ≤ n → n ≤ numOutlets → outlet n = false) :
    Coherent ⟨⟨clearedOutlets, gDev⟩, outlet⟩ := by
  intro n h₁ hn
  show (clearedOutlets.val[n]?).getD off = if outlet n then on else off
  rw [h n h₁ hn, clearedOutlets, List.getElem?_replicate]
  split <;> rfl

/-- What `init_device` does, in full. -/
theorem initDevice_eq (a : Answers) (s : State) :
    (initDevice a s).2.1 = ⟨clearedOutlets, a.openTTYLine⟩ ∧
      (initDevice a s).2.2 =
        if a.openTTYLine = -1 then [] else [rpcAlloff a.openTTYLine (a.write 0)] := by
  unfold initDevice rpcInit
  dsimp only
  split <;> exact ⟨rfl, rfl⟩

theorem obeyAll_single {outlet : ℕ → Bool} {w : Write} (h : w.Complete) :
    obeyAll outlet [w] = obey outlet w.line := by
  simp [obeyAll, h]

theorem Started.coherent {p : Plant} (h : Started p) : Coherent p := by
  obtain ⟨a, s, outlet, hopen, hws, rfl⟩ := h
  obtain ⟨hs, hw⟩ := initDevice_eq a s
  rw [if_neg hopen] at hw
  rw [hw] at hws
  rw [hs, hw, obeyAll_single (hws _ (by simp))]
  apply coherent_cleared
  intro n _ _
  rfl

/-! ### One command -/

/-- The kinds of commands on a coherent plant, one by one: the elements that
are accessed exist, cache and outlets change together. -/
theorem Coherent.execute {p : Plant} (h : Coherent p) (a : Answers) {c : Command}
    (hrange : ∀ n, c.outlet = some n → 1 ≤ n ∧ n < numOutlets)
    (hopen : c = .allOff → a.openTTYLine = -1 → ∀ n, 1 ≤ n → n ≤ numOutlets → p.outlet n = false) :
    ∃ s ws, c.execute a p.daemon = some (1, s, ws) ∧ ((∀ w ∈ ws, w.Complete) →
      Coherent ⟨s, obeyAll p.outlet ws⟩ ∧ Commanded (obeyAll p.outlet ws) c) := by
  cases c with
  | allOff =>
      obtain ⟨hs, hw⟩ := initDevice_eq a p.daemon
      refine ⟨_, _, rfl, fun hws => ?_⟩
      rw [hw] at hws
      have hcleared : ∀ n, 1 ≤ n → n ≤ numOutlets →
          obeyAll p.outlet (initDevice a p.daemon).2.2 n = false := by
        intro n h₁ hn
        rw [hw]
        by_cases hfail : a.openTTYLine = -1
        · rw [if_pos hfail]
          exact hopen rfl hfail n h₁ hn
        · rw [if_neg hfail] at hws ⊢
          rw [obeyAll_single (hws _ (by simp))]
          rfl
      rw [hs]
      exact ⟨coherent_cleared _ hcleared, hcleared⟩
  | down n =>
      obtain ⟨-, hn⟩ := hrange n rfl
      refine ⟨_, _, by rw [Command.execute, State.store_natCast _ hn]; rfl, fun hws => ?_⟩
      rw [obeyAll_single (hws _ (by simp))]
      simp only [rpcOff, writeLine, obey_off]
      exact ⟨h.update hn false _, Function.update_self ..⟩
  | up n =>
      obtain ⟨h₁, hn⟩ := hrange n rfl
      simp only [Command.execute, h.load_eq h₁ hn, State.store_natCast _ hn, Option.bind_some]
      cases hout : p.outlet n with
      | true => exact ⟨_, _, rfl, fun _ => ⟨h, hout⟩⟩
      | false =>
          refine ⟨_, _, rfl, fun hws => ?_⟩
          rw [obeyAll_single (hws _ (by simp))]
          simp only [rpcOn, writeLine, obey_on]
          exact ⟨h.update hn true _, Function.update_self ..⟩
  | reset n =>
      obtain ⟨h₁, hn⟩ := hrange n rfl
      simp only [Command.execute, h.load_eq h₁ hn, State.store_natCast _ hn, Option.bind_some]
      cases hout : p.outlet n with
      | true =>
          refine ⟨_, _, rfl, fun hws => ?_⟩
          -- off and on again
          have hcycle : obeyAll p.outlet (rpcReset a p.daemon.gDev n) = p.outlet := by
            have h₀ := hws _ (List.mem_cons_self)
            have h₁ := hws _ (List.mem_cons_of_mem _ List.mem_cons_self)
            simp only [obeyAll, rpcReset, List.foldl_cons, List.foldl_nil, h₀, h₁, if_true]
            simp only [rpcOff, rpcOn, writeLine, obey_off, obey_on, Function.update_idem]
            rw [← hout, Function.update_eq_self]
          rw [hcycle]
          exact ⟨h, hout⟩
      | false =>
          refine ⟨_, _, rfl, fun hws => ?_⟩
          rw [obeyAll_single (hws _ (by simp))]
          simp only [rpcOn, writeLine, obey_on]
          exact ⟨h.update hn true _, Function.update_self ..⟩

/-- A command that names the outlet without an element has no result. -/
theorem Command.execute_last (a : Answers) (s : State) {c : Command}
    (hc : c.outlet = some numOutlets) : c.execute a s = none := by
  cases c with
  | allOff => exact absurd hc (by simp [Command.outlet])
  | down n =>
      obtain rfl : n = numOutlets := Option.some.inj hc
      rw [Command.execute, State.store_of_ge _ le_rfl]
      rfl
  | up n | reset n =>
      obtain rfl : n = numOutlets := Option.some.inj hc
      rw [Command.execute, State.load_of_ge _ le_rfl]
      rfl

theorem Plant.turn_of_valid {cmd : List Byte} (h : validCommand cmd = true) :
    ∃ c, parse cmd = some c ∧ (∀ n, c.outlet = some n → 1 ≤ n ∧ n ≤ numOutlets) ∧
      ∀ (p : Plant) (a : Answers), p.turn ⟨cmd, a⟩ =
        (c.execute a p.daemon).map fun r => (⟨r.2.1, obeyAll p.outlet r.2.2⟩, r.2.2) := by
  obtain ⟨c, hc, hrange, hexec⟩ := executeCommand_of_valid h
  exact ⟨c, hc, hrange, fun p a => by rw [Plant.turn, hexec]⟩

/-- A safe command accesses elements only, keeps the cache in step and does
what it says. -/
theorem Coherent.turn {p : Plant} (h : Coherent p) {t : Turn} (hvalid : validCommand t.cmd = true)
    (hw : ∀ p' ws, p.turn t = some (p', ws) → ∀ w ∈ ws, w.Complete) (hsafe : Safe p t) :
    ∃ p' ws, p.turn t = some (p', ws) ∧ Coherent p' ∧
      ∀ c, parse t.cmd = some c → Commanded p'.outlet c := by
  obtain ⟨cmd, a⟩ := t
  obtain ⟨c, hc, hrange, hturn⟩ := Plant.turn_of_valid hvalid
  obtain ⟨s, ws, hexec, hdone⟩ := h.execute a (c := c)
    (fun n hn => ⟨(hrange n hn).1,
      lt_of_le_of_ne (hrange n hn).2 fun he => hsafe.1 c hc (hn.trans (congrArg some he))⟩)
    (fun hoff => hsafe.2 (hoff ▸ hc))
  have hrun : p.turn ⟨cmd, a⟩ = some (⟨s, obeyAll p.outlet ws⟩, ws) := by
    rw [hturn, hexec]
    rfl
  obtain ⟨h₁, h₂⟩ := hdone (hw _ _ hrun)
  refine ⟨_, _, hrun, h₁, fun c' hc' => ?_⟩
  obtain rfl : c = c' := Option.some.inj (hc.symm.trans hc')
  exact h₂

/-- A command that accesses elements only and leaves the cache in step is safe. -/
theorem safe_of_turn {p p' : Plant} {ws : List Write} {t : Turn}
    (hvalid : validCommand t.cmd = true) (hturn : p.turn t = some (p', ws)) (h' : Coherent p') :
    Safe p t := by
  obtain ⟨cmd, a⟩ := t
  obtain ⟨c, hc, -, heq⟩ := Plant.turn_of_valid hvalid
  rw [heq] at hturn
  refine ⟨fun c' hc' hlast => ?_, fun hoff hopen n h₁ hn => ?_⟩
  · obtain rfl : c = c' := Option.some.inj (hc.symm.trans hc')
    rw [Command.execute_last a _ hlast] at hturn
    exact absurd hturn (by simp)
  · obtain rfl : c = .allOff := Option.some.inj (hc.symm.trans hoff)
    obtain ⟨hs, hw⟩ := initDevice_eq a p.daemon
    rw [if_pos hopen] at hw
    obtain ⟨rfl, -⟩ := Prod.mk.inj (Option.some.inj hturn)
    have := h' n h₁ hn
    dsimp only at this
    rw [hs, hw, clearedOutlets, List.getElem?_replicate] at this
    cases hout : p.outlet n with
    | false => rfl
    | true =>
        simp only [obeyAll, List.foldl_nil, hout, if_true] at this
        split at this <;> exact absurd this (by decide)

/-! ### Runs -/

theorem coherentRun_iff {p : Plant} (h : Coherent p) {ts : List Turn}
    (hvalid : ∀ t ∈ ts, validCommand t.cmd = true) (hw : WritesSucceed p ts) :
    CoherentRun p ts ↔ SafeRun p ts := by
  induction ts generalizing p with
  | nil => exact Iff.rfl
  | cons t ts ih =>
      have hv : validCommand t.cmd = true := hvalid t List.mem_cons_self
      have hvs : ∀ t ∈ ts, validCommand t.cmd = true :=
        fun t ht => hvalid t (List.mem_cons_of_mem _ ht)
      constructor
      · rintro ⟨p', ws, hturn, h', -, hrest⟩
        refine ⟨safe_of_turn hv hturn h', fun p'' ws' hturn' => ?_⟩
        obtain ⟨rfl, -⟩ := Prod.mk.inj (Option.some.inj (hturn.symm.trans hturn'))
        exact (ih h' hvs (hw p' ws hturn).2).mp hrest
      · rintro ⟨hsafe, hrest⟩
        obtain ⟨p', ws, hturn, h', hdone⟩ := h.turn hv (fun p' ws ht => (hw p' ws ht).1) hsafe
        exact ⟨p', ws, hturn, h', hdone,
          (ih h' hvs (hw p' ws hturn).2).mpr (hrest p' ws hturn)⟩

theorem WritesSucceed.cons {p p' : Plant} {t : Turn} {ts : List Turn} {ws : List Write}
    (hturn : p.turn t = some (p', ws)) (hws : ∀ w ∈ ws, w.Complete) (h : WritesSucceed p' ts) :
    WritesSucceed p (t :: ts) := by
  intro p'' ws' hturn'
  obtain ⟨rfl, rfl⟩ := Prod.mk.inj (Option.some.inj (hturn.symm.trans hturn'))
  exact ⟨hws, h⟩

/-- The answers to a command whose writes go out `n` bytes long. -/
def sampleAnswers (n : ℤ) : Answers := ⟨3, fun _ => n, by decide⟩

/-- A freshly started plant. -/
def startedPlant : Plant :=
  ⟨(initDevice (sampleAnswers 9) ⟨clearedOutlets, -1⟩).2.1, fun _ => false⟩

theorem startedPlant_started : Started startedPlant :=
  ⟨sampleAnswers 9, ⟨clearedOutlets, -1⟩, fun _ => true, by decide, by decide, rfl⟩

/-- **Coherence of the power daemon.** In a run of valid commands after a
successful start whose writes are complete, every access is to an element of
`outlets`, cache and outlets agree after every command and are as it asks, if
and only if no command names outlet `NUM_OUTLETS` and no `off` fails to reopen
the line while an outlet is on. -/
theorem power_coherent_iff {p : Plant} (h : Started p) {ts : List Turn}
    (hvalid : ∀ t ∈ ts, validCommand t.cmd = true) (hw : WritesSucceed p ts) :
    CoherentRun p ts ↔ SafeRun p ts :=
  coherentRun_iff h.coherent hvalid hw

theorem power_coherent_u05_off :
    CoherentRun startedPlant [⟨text "u05", sampleAnswers 6⟩, ⟨text "off", sampleAnswers 9⟩] := by
  refine (power_coherent_iff startedPlant_started (by decide) ?_).mpr ?_
  · exact .cons rfl (by decide) (.cons rfl (by decide) trivial)
  · refine ⟨⟨by decide, fun hoff => absurd hoff (by decide)⟩, fun p ws _ => ⟨⟨by decide, ?_⟩, ?_⟩⟩
    · exact fun _ hopen => absurd hopen (by decide)
    · exact fun _ _ _ => trivial

/-- `u48` is valid and indexes the element behind the last one. -/
theorem not_coherentRun_u48 :
    Started startedPlant ∧ validCommand (text "u48") = true ∧
      WritesSucceed startedPlant [⟨text "u48", sampleAnswers 7⟩] ∧
      ¬CoherentRun startedPlant [⟨text "u48", sampleAnswers 7⟩] := by
  have hnone : startedPlant.turn ⟨text "u48", sampleAnswers 7⟩ = none := rfl
  refine ⟨startedPlant_started, by decide, fun p' ws h => ?_, fun ⟨p', ws, h, _⟩ => ?_⟩
  · exact absurd (hnone.symm.trans h) (by simp)
  · exact absurd (hnone.symm.trans h) (by simp)

end XinuConsole.Powerd
