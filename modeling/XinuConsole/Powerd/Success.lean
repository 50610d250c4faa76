import XinuConsole.Powerd.Coherence
import XinuConsole.Powerd.Server

/-!
What `MSG_SUCCESS` says about the power controller.

A site is the daemon with the lines that were written to the controller
completely since it started. `execute_command` stores the new state before it
writes and drops the results of `init_device` and of the `rpc_` functions.
-/

namespace XinuConsole.Powerd

open Lib

/-- The state that a line puts outlet `n` in, when it concerns it. -/
def setting (line : List Byte) (n : ℕ) : Option Bool :=
  if line.take 4 = text "off " then
    if line.drop 4 = text "all\r\n" then some false
    else if (atoi (line.drop 4)).toNat = n then some false else none
  else if line.take 3 = text "on " then
    if (atoi (line.drop 3)).toNat = n then some true else none
  else none

/-- The state that the last line concerning outlet `n` puts it in. -/
def lastSetting (lines : List (List Byte)) (n : ℕ) : Option Bool :=
  lines.foldl (fun last line => (setting line n).or last) none

/-- The lines of the writes that went out completely. -/
def written (ws : List Write) : List (List Byte) :=
  (ws.filter fun w => decide w.Complete).map Write.line

structure Site where
  daemon : State
  lines : List (List Byte)

/-- A command on the site: the message for the client, the site after it and
the writes. -/
def Site.turn (p : Site) (t : Turn) : Option (List Byte × Site × List Write) :=
  (executeCommand t.answers p.daemon t.cmd).map fun r =>
    (answer r.1, ⟨r.2.1, p.lines ++ written r.2.2⟩, r.2.2)

/-- The site where `main` goes on to listen. -/
def Site.Started (p : Site) : Prop :=
  ∃ a s, (initDevice a s).1 ≠ -1 ∧ p = ⟨(initDevice a s).2.1, written (initDevice a s).2.2⟩

/-- The outlets a command addresses and the state it asks for. -/
def Command.Asks : Command → ℕ → Bool → Prop
  | .allOff, n, b => 1 ≤ n ∧ n ≤ numOutlets ∧ b = false
  | .down k, n, b => n = k ∧ b = false
  | .up k, n, b => n = k ∧ b = true
  | .reset k, n, b => n = k ∧ b = true

/-- The answer to a command tells the truth: success only if the last line
written leaves every outlet addressed as asked, and not after a failed write;
nor does the cache claim the new state then. -/
def Site.Honest (p : Site) (t : Turn) : Prop :=
  ∃ mesg p' ws, p.turn t = some (mesg, p', ws) ∧ ∀ c, parse t.cmd = some c →
    (mesg = msgSuccess → ∀ n b, c.Asks n b → lastSetting p'.lines n = some b) ∧
    ((∃ w ∈ ws, ¬w.Complete) → mesg ≠ msgSuccess ∧ ∀ n b, c.Asks n b →
      p'.daemon.load n = some (if b then on else off) →
      p.daemon.load n = some (if b then on else off))

def HonestRun : Site → List Turn → Prop
  | _, [] => True
  | p, t :: ts => p.Honest t ∧ ∀ mesg p' ws, p.turn t = some (mesg, p', ws) → HonestRun p' ts

/-- The system takes a line to the controller as the `k`-th write. -/
def Carries (gDev : ℤ) (a : Answers) (k : ℕ) (line : List Byte) : Prop :=
  0 ≤ gDev ∧ a.write k = line.length

/-- What a command has to write is written, and it does not name the last
outlet. An `off` may find the line gone where everything is off already. -/
def Site.Carried (p : Site) (a : Answers) : Command → Prop
  | .allOff =>
      if a.openTTYLine = -1 then ∀ n, 1 ≤ n → n ≤ numOutlets → lastSetting p.lines n = some false
      else Carries a.openTTYLine a 0 (text "off all\r\n")
  | .down n => n ≠ numOutlets ∧
      Carries p.daemon.gDev a 0 (text "off " ++ fmtD n ++ text "\r\n")
  | .up n => n ≠ numOutlets ∧ (p.daemon.load n = some on ∨
      Carries p.daemon.gDev a 0 (text "on " ++ fmtD n ++ text "\r\n"))
  | .reset n => n ≠ numOutlets ∧
      if p.daemon.load n = some on then
        Carries p.daemon.gDev a 0 (text "off " ++ fmtD n ++ text "\r\n") ∧
          Carries p.daemon.gDev a 1 (text "on " ++ fmtD n ++ text "\r\n")
      else Carries p.daemon.gDev a 0 (text "on " ++ fmtD n ++ text "\r\n")

def CarriedRun : Site → List Turn → Prop
  | _, [] => True
  | p, t :: ts => (∀ c, parse t.cmd = some c → p.Carried t.answers c) ∧
      ∀ mesg p' ws, p.turn t = some (mesg, p', ws) → CarriedRun p' ts

/-- An element of the cache that is on stands for an outlet that was turned on. -/
def Site.TrueOn (p : Site) : Prop :=
  ∀ n : ℕ, 1 ≤ n → p.daemon.load n = some on → lastSetting p.lines n = some true

/-! ### Settings and outlets -/

/-- The controller obeys a line as its settings say. -/
theorem obey_eq_setting (outlet : ℕ → Bool) (line : List Byte) (n : ℕ) :
    obey outlet line n = (setting line n).getD (outlet n) := by
  unfold obey setting
  split
  · split
    · rfl
    · by_cases hn : (atoi (line.drop 4)).toNat = n
      · subst hn
        simp
      · simp [hn, Function.update_of_ne (Ne.symm hn)]
  · split
    · by_cases hn : (atoi (line.drop 3)).toNat = n
      · subst hn
        simp
      · simp [hn, Function.update_of_ne (Ne.symm hn)]
    · rfl

@[simp] theorem lastSetting_nil (n : ℕ) : lastSetting [] n = none := rfl

@[simp] theorem lastSetting_concat (lines : List (List Byte)) (line : List Byte) (n : ℕ) :
    lastSetting (lines ++ [line]) n = (setting line n).or (lastSetting lines n) := by
  simp [lastSetting]

/-- The outlets of a controller that obeyed the complete writes. -/
theorem obeyAll_eq_lastSetting (outlet : ℕ → Bool) (ws : List Write) (n : ℕ) :
    obeyAll outlet ws n = (lastSetting (written ws) n).getD (outlet n) := by
  induction ws using List.reverseRecOn with
  | nil => rfl
  | append_singleton ws w ih =>
      by_cases hw : w.Complete
      · have hwritten : written (ws ++ [w]) = written ws ++ [w.line] := by simp [written, hw]
        rw [hwritten, lastSetting_concat]
        simp only [obeyAll, List.foldl_append, List.foldl_cons, List.foldl_nil, hw, if_true] at ih ⊢
        rw [obey_eq_setting, ih]
        cases setting w.line n <;> rfl
      · have hwritten : written (ws ++ [w]) = written ws := by simp [written, hw]
        rw [hwritten, ← ih]
        simp [obeyAll, hw]

theorem setting_off (k n : ℕ) :
    setting (text "off " ++ fmtD k ++ text "\r\n") n = if n = k then some false else none := by
  have htake : (text "off " ++ fmtD k ++ text "\r\n").take 4 = text "off " := rfl
  have hdrop : (text "off " ++ fmtD k ++ text "\r\n").drop 4 = decimal k ++ text "\r\n" := by
    rw [fmtD_natCast]
    rfl
  rw [setting, if_pos htake, hdrop, if_neg (decimal_ne_all k), atoi_decimal k rfl,
    Int.toNat_natCast]
  simp only [eq_comm]

theorem setting_on (k n : ℕ) :
    setting (text "on " ++ fmtD k ++ text "\r\n") n = if n = k then some true else none := by
  have htake : (text "on " ++ fmtD k ++ text "\r\n").take 4 ≠ text "off " := by
    intro h
    exact absurd (congrArg (fun l => l.getD 1 0) h) (by simp [text])
  have htake' : (text "on " ++ fmtD k ++ text "\r\n").take 3 = text "on " := rfl
  have hdrop : (text "on " ++ fmtD k ++ text "\r\n").drop 3 = decimal k ++ text "\r\n" := by
    rw [fmtD_natCast]
    rfl
  rw [setting, if_neg htake, if_pos htake', hdrop, atoi_decimal k rfl, Int.toNat_natCast]
  simp only [eq_comm]

theorem setting_off_all (n : ℕ) : setting (text "off all\r\n") n = some false := rfl

/-! ### One command -/

theorem writeLine_complete (gDev rv : ℤ) (line : List Byte) :
    (writeLine gDev rv line).Complete ↔ 0 ≤ gDev ∧ rv = line.length := by
  simp only [Write.Complete, writeLine]
  split
  · constructor <;> intro h <;> omega
  · constructor <;> intro h <;> omega

@[simp] theorem written_nil : written [] = [] := rfl

@[simp] theorem written_cons_of_complete {w : Write} (h : w.Complete) (ws : List Write) :
    written (w :: ws) = w.line :: written ws := by
  simp [written, h]

/-- What a command can do to the daemon, and what it writes. -/
inductive Executed (a : Answers) (s : State) : Command → State → List Write → Prop
  | lost (h : a.openTTYLine = -1) : Executed a s .allOff ⟨clearedOutlets, a.openTTYLine⟩ []
  | allOff (h : a.openTTYLine ≠ -1) :
      Executed a s .allOff ⟨clearedOutlets, a.openTTYLine⟩ [rpcAlloff a.openTTYLine (a.write 0)]
  | down {n : ℕ} (hn : n < numOutlets) :
      Executed a s (.down n) { s with outlets := s.outlets.set n off } [rpcOff s.gDev (a.write 0) n]
  | upCached {n : ℕ} (hn : n < numOutlets) (h : s.load n = some on) : Executed a s (.up n) s []
  | up {n : ℕ} (hn : n < numOutlets) (h : s.load n ≠ some on) :
      Executed a s (.up n) { s with outlets := s.outlets.set n on } [rpcOn s.gDev (a.write 0) n]
  | cycle {n : ℕ} (hn : n < numOutlets) (h : s.load n = some on) :
      Executed a s (.reset n) s (rpcReset a s.gDev n)
  | reset {n : ℕ} (hn : n < numOutlets) (h : s.load n ≠ some on) :
      Executed a s (.reset n) { s with outlets := s.outlets.set n on }
        [rpcOn s.gDev (a.write 0) n]

theorem State.load_of_lt (s : State) {n : ℕ} (hn : n < numOutlets) : ∃ b, s.load n = some b := by
  have hlt : n < s.outlets.val.length := by rwa [s.outlets.property]
  exact ⟨_, by rw [State.load_natCast, List.getElem?_eq_getElem hlt]⟩

/-- The result of a command is 1, whatever the controller's line answers. -/
theorem Command.execute_eq_some {a : Answers} {s s' : State} {c : Command} {rv : ℤ}
    {ws : List Write} : c.execute a s = some (rv, s', ws) ↔ rv = 1 ∧ Executed a s c s' ws := by
  constructor
  · intro h
    cases c with
    | allOff =>
        obtain ⟨hs, hw⟩ := initDevice_eq a s
        obtain ⟨rfl, hsw⟩ := Prod.mk.inj (Option.some.inj h)
        rw [hsw] at hs hw
        obtain rfl : s' = _ := hs
        obtain rfl : ws = _ := hw
        split
        · next hopen => exact ⟨rfl, .lost hopen⟩
        · next hopen => exact ⟨rfl, .allOff hopen⟩
    | down n =>
        rcases lt_or_ge n numOutlets with hn | hn
        · rw [Command.execute, State.store_natCast _ hn] at h
          cases h
          exact ⟨rfl, .down hn⟩
        · rw [Command.execute, State.store_of_ge _ hn] at h
          exact absurd h (by simp)
    | up n =>
        rcases lt_or_ge n numOutlets with hn | hn
        · obtain ⟨b, hb⟩ := s.load_of_lt hn
          simp only [Command.execute, hb, State.store_natCast _ hn, Option.bind_some] at h
          split at h
          · next hon =>
            cases h
            exact ⟨rfl, .upCached hn (hb.trans (congrArg some hon))⟩
          · next hon =>
            cases h
            exact ⟨rfl, .up hn fun h => hon (Option.some.inj (hb.symm.trans h))⟩
        · rw [Command.execute, State.load_of_ge _ hn] at h
          exact absurd h (by simp)
    | reset n =>
        rcases lt_or_ge n numOutlets with hn | hn
        · obtain ⟨b, hb⟩ := s.load_of_lt hn
          simp only [Command.execute, hb, State.store_natCast _ hn, Option.bind_some] at h
          split at h
          · next hon =>
            cases h
            exact ⟨rfl, .cycle hn (hb.trans (congrArg some hon))⟩
          · next hon =>
            cases h
            exact ⟨rfl, .reset hn fun h => hon (Option.some.inj (hb.symm.trans h))⟩
        · rw [Command.execute, State.load_of_ge _ hn] at h
          exact absurd h (by simp)
  · rintro ⟨rfl, h⟩
    obtain ⟨hs, hw⟩ := initDevice_eq a s
    cases h with
    | lost hopen | allOff hopen =>
        rw [Command.execute, ← hs]
        congr 2
        simp [Prod.ext_iff, hw, hopen]
    | down hn => simp [Command.execute, State.store_natCast _ hn]
    | upCached hn hon | cycle hn hon => simp [Command.execute, hon]
    | @up n hn hon | @reset n hn hon =>
        obtain ⟨b, hb⟩ := s.load_of_lt hn
        have hne : b ≠ on := fun h => hon (hb.trans (congrArg some h))
        simp [Command.execute, hb, State.store_natCast _ hn]
        exact fun h => absurd h hne

theorem State.load_set (s : State) (gDev : ℤ) {k : ℕ} (hk : k < numOutlets) (v : Byte) (n : ℕ) :
    State.load ⟨s.outlets.set k v, gDev⟩ n = if n = k then some v else s.load n := by
  rw [State.load_natCast, State.load_natCast]
  show (s.outlets.val.set k v)[n]? = _
  by_cases hn : n = k
  · subst hn
    rw [if_pos rfl, List.getElem?_set_self (by rwa [s.outlets.property])]
  · rw [if_neg hn, List.getElem?_set_ne (Ne.symm hn)]

theorem State.load_cleared {gDev : ℤ} {n : ℕ} {v : Byte}
    (h : State.load ⟨clearedOutlets, gDev⟩ n = some v) : v = off := by
  rw [State.load_natCast, clearedOutlets, List.getElem?_replicate] at h
  split at h
  · exact (Option.some.inj h).symm
  · exact absurd h (by simp)

namespace Executed

variable {a : Answers} {s s' : State} {c : Command} {ws : List Write}

/-- The cache is as the command asks, whether or not the lines went out. -/
theorem load_of_asks (h : Executed a s c s' ws) {n : ℕ} {b : Bool} (hask : c.Asks n b)
    {v : Byte} (hv : s'.load n = some v) : v = if b then on else off := by
  cases h with
  | lost | allOff =>
      obtain ⟨-, -, rfl⟩ := hask
      exact State.load_cleared hv
  | down hn | up hn | reset hn =>
      obtain ⟨rfl, rfl⟩ := hask
      rw [State.load_set _ _ hn, if_pos rfl] at hv
      exact (Option.some.inj hv).symm
  | upCached hn hon | cycle hn hon =>
      obtain ⟨rfl, rfl⟩ := hask
      exact Option.some.inj (hv.symm.trans hon)

/-- An element that is on after a command was on before it or is asked for. -/
theorem load_of_on (h : Executed a s c s' ws) {n : ℕ} (hon : s'.load n = some on) :
    c.Asks n true ∨ s.load n = some on := by
  cases h with
  | lost | allOff => exact absurd (State.load_cleared hon) (by decide)
  | @down k hk =>
      rw [State.load_set _ _ hk] at hon
      split at hon
      · exact absurd (Option.some.inj hon) (by decide)
      · exact Or.inr hon
  | @up k hk | @reset k hk =>
      rw [State.load_set _ _ hk] at hon
      split at hon
      · next hn => exact Or.inl ⟨hn, rfl⟩
      · exact Or.inr hon
  | upCached | cycle => exact Or.inr hon

/-- A command that asks for nothing at an outlet writes no line about it. -/
theorem setting_of_not_asks (h : Executed a s c s' ws) {n : ℕ} (h₁ : 1 ≤ n) (hn : n ≤ numOutlets)
    (hask : ∀ b, ¬c.Asks n b) : ∀ w ∈ ws, setting w.line n = none := by
  cases h with
  | lost | allOff => exact absurd ⟨h₁, hn, rfl⟩ (hask false)
  | upCached => simp
  | @down k | @up k | @cycle k | @reset k =>
      have hne : n ≠ k := fun h => hask _ ⟨h, rfl⟩
      simp [rpcReset, rpcOff, rpcOn, writeLine, setting_off, setting_on, hne, -List.append_assoc]

end Executed

theorem lastSetting_append_of_none {lines lines' : List (List Byte)} {n : ℕ}
    (h : ∀ line ∈ lines', setting line n = none) :
    lastSetting (lines ++ lines') n = lastSetting lines n := by
  induction lines' using List.reverseRecOn with
  | nil => rw [List.append_nil]
  | append_singleton lines' line ih =>
      rw [← List.append_assoc, lastSetting_concat, h line (by simp), Option.none_or]
      exact ih fun l hl => h l (by simp [hl])

theorem mem_written {ws : List Write} {line : List Byte} (h : line ∈ written ws) :
    ∃ w ∈ ws, line = w.line := by
  simp only [written, List.mem_map, List.mem_filter] at h
  obtain ⟨w, ⟨hw, -⟩, rfl⟩ := h
  exact ⟨w, hw, rfl⟩

/-- The lines of a command went out and leave the outlets as it asks. -/
def Site.Done (p : Site) (a : Answers) (c : Command) : Prop :=
  ∃ s ws, Executed a p.daemon c s ws ∧ (∀ w ∈ ws, w.Complete) ∧
    ∀ n b, c.Asks n b → lastSetting (p.lines ++ written ws) n = some b

/-- One line that went out decides the outlet it names. -/
theorem lastSetting_written_single {w : Write} (h : w.Complete) (lines : List (List Byte)) {n : ℕ}
    {b : Bool} (hset : setting w.line n = some b) :
    lastSetting (lines ++ written [w]) n = some b := by
  rw [written_cons_of_complete h, written_nil, lastSetting_concat, hset, Option.some_or]

theorem Site.carried_of_done {p : Site} {a : Answers} {c : Command} (h : p.Done a c) :
    p.Carried a c := by
  obtain ⟨s, ws, hexec, hws, hask⟩ := h
  cases hexec with
  | lost hopen =>
      rw [Site.Carried, if_pos hopen]
      intro n h₁ hn
      simpa using hask n false ⟨h₁, hn, rfl⟩
  | allOff hopen =>
      rw [Site.Carried, if_neg hopen]
      exact (writeLine_complete ..).mp (hws _ List.mem_cons_self)
  | down hn => exact ⟨hn.ne, (writeLine_complete ..).mp (hws _ List.mem_cons_self)⟩
  | upCached hn hon => exact ⟨hn.ne, Or.inl hon⟩
  | up hn hon => exact ⟨hn.ne, Or.inr ((writeLine_complete ..).mp (hws _ List.mem_cons_self))⟩
  | cycle hn hon =>
      refine ⟨hn.ne, ?_⟩
      rw [if_pos hon]
      exact ⟨(writeLine_complete ..).mp (hws _ List.mem_cons_self),
        (writeLine_complete ..).mp (hws _ (List.mem_cons_of_mem _ List.mem_cons_self))⟩
  | reset hn hon =>
      refine ⟨hn.ne, ?_⟩
      rw [if_neg hon]
      exact (writeLine_complete ..).mp (hws _ List.mem_cons_self)

theorem Site.done_of_carried {p : Site} (hp : p.TrueOn) {a : Answers} {c : Command}
    (hrange : ∀ n, c.outlet = some n → 1 ≤ n ∧ n ≤ numOutlets) (h : p.Carried a c) :
    p.Done a c := by
  cases c with
  | allOff =>
      by_cases hopen : a.openTTYLine = -1
      · rw [Site.Carried, if_pos hopen] at h
        refine ⟨_, _, .lost hopen, by simp, ?_⟩
        rintro n b ⟨h₁, hn, rfl⟩
        simpa using h n h₁ hn
      · rw [Site.Carried, if_neg hopen] at h
        have hw : (rpcAlloff a.openTTYLine (a.write 0)).Complete := (writeLine_complete ..).mpr h
        refine ⟨_, _, .allOff hopen, by simpa using hw, ?_⟩
        rintro n b ⟨-, -, rfl⟩
        exact lastSetting_written_single hw _ (setting_off_all n)
  | down k =>
      have hk := lt_of_le_of_ne (hrange k rfl).2 h.1
      have hw : (rpcOff p.daemon.gDev (a.write 0) k).Complete := (writeLine_complete ..).mpr h.2
      refine ⟨_, _, .down hk, by simpa using hw, ?_⟩
      rintro n b ⟨rfl, rfl⟩
      exact lastSetting_written_single hw _ ((setting_off n n).trans (if_pos rfl))
  | up k =>
      have hk := lt_of_le_of_ne (hrange k rfl).2 h.1
      by_cases hon : p.daemon.load k = some on
      · refine ⟨_, _, .upCached hk hon, by simp, ?_⟩
        rintro n b ⟨rfl, rfl⟩
        simpa using hp n (hrange n rfl).1 hon
      · have hw : (rpcOn p.daemon.gDev (a.write 0) k).Complete :=
          (writeLine_complete ..).mpr (h.2.resolve_left hon)
        refine ⟨_, _, .up hk hon, by simpa using hw, ?_⟩
        rintro n b ⟨rfl, rfl⟩
        exact lastSetting_written_single hw _ ((setting_on n n).trans (if_pos rfl))
  | reset k =>
      have hk := lt_of_le_of_ne (hrange k rfl).2 h.1
      obtain ⟨-, h⟩ := h
      by_cases hon : p.daemon.load k = some on
      · rw [if_pos hon] at h
        have hw₀ : (rpcOff p.daemon.gDev (a.write 0) k).Complete := (writeLine_complete ..).mpr h.1
        have hw₁ : (rpcOn p.daemon.gDev (a.write 1) k).Complete := (writeLine_complete ..).mpr h.2
        refine ⟨_, _, .cycle hk hon, by simp [rpcReset, hw₀, hw₁], ?_⟩
        rintro n b ⟨rfl, rfl⟩
        -- the second line decides
        have hsplit : p.lines ++ written (rpcReset a p.daemon.gDev n) =
            (p.lines ++ [(rpcOff p.daemon.gDev (a.write 0) n).line]) ++
              written [rpcOn p.daemon.gDev (a.write 1) n] := by
          rw [rpcReset, written_cons_of_complete hw₀, List.append_cons]
        rw [hsplit]
        exact lastSetting_written_single hw₁ _ ((setting_on n n).trans (if_pos rfl))
      · rw [if_neg hon] at h
        have hw : (rpcOn p.daemon.gDev (a.write 0) k).Complete := (writeLine_complete ..).mpr h
        refine ⟨_, _, .reset hk hon, by simpa using hw, ?_⟩
        rintro n b ⟨rfl, rfl⟩
        exact lastSetting_written_single hw _ ((setting_on n n).trans (if_pos rfl))

/-- After a command whose lines went out, elements that are on stand for
outlets that were turned on. -/
theorem Site.TrueOn.executed {p : Site} (hp : p.TrueOn) {a : Answers} {c : Command} {s : State}
    {ws : List Write} (hexec : Executed a p.daemon c s ws)
    (hask : ∀ n b, c.Asks n b → lastSetting (p.lines ++ written ws) n = some b) :
    Site.TrueOn ⟨s, p.lines ++ written ws⟩ := by
  intro n h₁ hon
  by_cases hasks : ∃ b, c.Asks n b
  · obtain ⟨b, hb⟩ := hasks
    have hval := hexec.load_of_asks hb hon
    cases b with
    | true => exact hask n true hb
    | false => exact absurd hval (by decide)
  · have hno : ∀ b, ¬c.Asks n b := fun b hb => hasks ⟨b, hb⟩
    have hold := (hexec.load_of_on hon).resolve_left (hno true)
    have hn : n ≤ numOutlets := by
      by_contra hgt
      rw [State.load_of_ge _ (Nat.le_of_not_le hgt)] at hold
      exact absurd hold (by simp)
    show lastSetting (p.lines ++ written ws) n = some true
    rw [lastSetting_append_of_none]
    · exact hp n h₁ hold
    · intro line hline
      obtain ⟨w, hw, rfl⟩ := mem_written hline
      exact hexec.setting_of_not_asks h₁ hn hno w hw

theorem answer_one : answer 1 = msgSuccess := rfl

/-- A valid command on the site, by its kind. -/
theorem Site.turn_of_valid {t : Turn} (h : validCommand t.cmd = true) :
    ∃ c, parse t.cmd = some c ∧ (∀ n, c.outlet = some n → 1 ≤ n ∧ n ≤ numOutlets) ∧
      ∀ (p : Site) mesg p' ws, p.turn t = some (mesg, p', ws) ↔
        mesg = msgSuccess ∧ Executed t.answers p.daemon c p'.daemon ws ∧
          p' = ⟨p'.daemon, p.lines ++ written ws⟩ := by
  obtain ⟨c, hc, hrange, hexec⟩ := executeCommand_of_valid h
  refine ⟨c, hc, hrange, fun p mesg p' ws => ?_⟩
  rw [Site.turn, hexec, Option.map_eq_some_iff]
  constructor
  · rintro ⟨⟨rv, s, ws'⟩, hr, heq⟩
    obtain ⟨rfl, hdone⟩ := Command.execute_eq_some.mp hr
    cases heq
    exact ⟨answer_one, hdone, rfl⟩
  · rintro ⟨rfl, hdone, hp'⟩
    refine ⟨(1, p'.daemon, ws), Command.execute_eq_some.mpr ⟨rfl, hdone⟩, ?_⟩
    rw [hp']
    rfl

theorem Site.honest_iff_done {p : Site} {t : Turn} (h : validCommand t.cmd = true) :
    p.Honest t ↔ ∀ c, parse t.cmd = some c → p.Done t.answers c := by
  obtain ⟨c, hc, -, hturn⟩ := Site.turn_of_valid h
  constructor
  · rintro ⟨mesg, p', ws, hp', hhonest⟩ c' hc'
    obtain ⟨hmesg, hexec, heq⟩ := (hturn p mesg p' ws).mp hp'
    obtain rfl : c = c' := Option.some.inj (hc.symm.trans hc')
    obtain ⟨hask, hfail⟩ := hhonest c hc
    refine ⟨p'.daemon, ws, hexec, fun w hw => ?_, fun n b hb => ?_⟩
    · by_contra hnot
      exact (hfail ⟨w, hw, hnot⟩).1 hmesg
    · have := hask hmesg n b hb
      rwa [heq] at this
  · intro hdone
    obtain ⟨s, ws, hexec, hws, hask⟩ := hdone c hc
    refine ⟨msgSuccess, ⟨s, p.lines ++ written ws⟩, ws, (hturn _ _ _ _).mpr ⟨rfl, hexec, rfl⟩, ?_⟩
    intro c' hc'
    obtain rfl : c = c' := Option.some.inj (hc.symm.trans hc')
    refine ⟨fun _ => hask, fun ⟨w, hw, hnot⟩ => absurd (hws w hw) hnot⟩

/-- One command: the answer is honest exactly where the lines are carried. -/
theorem Site.TrueOn.honest_iff {p : Site} (hp : p.TrueOn) {t : Turn}
    (h : validCommand t.cmd = true) :
    p.Honest t ↔ ∀ c, parse t.cmd = some c → p.Carried t.answers c := by
  obtain ⟨c, hc, hrange, -⟩ := Site.turn_of_valid h
  rw [Site.honest_iff_done h]
  constructor
  · exact fun hdone c hc => Site.carried_of_done (hdone c hc)
  · intro hcarried c' hc'
    obtain rfl : c = c' := Option.some.inj (hc.symm.trans hc')
    exact Site.done_of_carried hp hrange (hcarried c hc)

theorem Site.TrueOn.turn {p : Site} (hp : p.TrueOn) {t : Turn} (h : validCommand t.cmd = true)
    (hhonest : p.Honest t) {mesg : List Byte} {p' : Site} {ws : List Write}
    (hturn : p.turn t = some (mesg, p', ws)) : p'.TrueOn := by
  obtain ⟨c, hc, -, heq⟩ := Site.turn_of_valid h
  obtain ⟨hmesg, hexec, hp'⟩ := (heq p mesg p' ws).mp hturn
  obtain ⟨mesg', p'', ws', hturn', hrest⟩ := hhonest
  obtain ⟨rfl, hpair⟩ := Prod.mk.inj (Option.some.inj (hturn.symm.trans hturn'))
  obtain ⟨rfl, rfl⟩ := Prod.mk.inj hpair
  have hask := (hrest c hc).1 hmesg
  rw [hp'] at hask ⊢
  exact hp.executed hexec hask

/-! ### Runs -/

theorem honestRun_iff {p : Site} (hp : p.TrueOn) {ts : List Turn}
    (hvalid : ∀ t ∈ ts, validCommand t.cmd = true) : HonestRun p ts ↔ CarriedRun p ts := by
  induction ts generalizing p with
  | nil => exact Iff.rfl
  | cons t ts ih =>
      have hv : validCommand t.cmd = true := hvalid t List.mem_cons_self
      have hvs : ∀ t ∈ ts, validCommand t.cmd = true :=
        fun t ht => hvalid t (List.mem_cons_of_mem _ ht)
      rw [HonestRun, CarriedRun, ← hp.honest_iff hv]
      apply and_congr_right
      intro hhonest
      constructor
      · exact fun h mesg p' ws ht => (ih (hp.turn hv hhonest ht) hvs).mp (h mesg p' ws ht)
      · exact fun h mesg p' ws ht => (ih (hp.turn hv hhonest ht) hvs).mpr (h mesg p' ws ht)

theorem Site.Started.trueOn {p : Site} (h : p.Started) : p.TrueOn := by
  obtain ⟨a, s, -, rfl⟩ := h
  intro n _ hon
  rw [(initDevice_eq a s).1] at hon
  exact absurd (State.load_cleared hon) (by decide)

/-- The site after a start that wrote `off all` completely. -/
def startedSite : Site := ⟨⟨clearedOutlets, 3⟩, [text "off all\r\n"]⟩

theorem startedSite_started : startedSite.Started :=
  ⟨sampleAnswers 9, ⟨clearedOutlets, -1⟩, by decide, rfl⟩

/-- **The success messages of the power daemon.** In a run of valid commands
after a start, every answer is honest if and only if no command names outlet
`NUM_OUTLETS`, whatever a command has to write to the controller is written
completely, and no `off` fails to reopen the line unless everything is off. -/
theorem power_success_iff {p : Site} (h : p.Started) {ts : List Turn}
    (hvalid : ∀ t ∈ ts, validCommand t.cmd = true) : HonestRun p ts ↔ CarriedRun p ts :=
  honestRun_iff h.trueOn hvalid

theorem power_success_u05 : HonestRun startedSite [⟨text "u05", sampleAnswers 6⟩] := by
  refine (power_success_iff startedSite_started (by decide)).mpr ⟨?_, fun _ _ _ _ => trivial⟩
  intro c hc
  obtain rfl : Command.up 5 = c := Option.some.inj hc
  exact ⟨by decide, Or.inr ⟨by decide, rfl⟩⟩

/-- A write that fails is answered with success, and the next `u05` is answered
with success out of the cache: the last line still turned the outlet off. -/
theorem not_honestRun_u05 :
    startedSite.Started ∧ validCommand (text "u05") = true ∧
      ¬HonestRun startedSite [⟨text "u05", sampleAnswers (-1)⟩, ⟨text "u05", sampleAnswers 6⟩] ∧
      ∃ p, startedSite.turn ⟨text "u05", sampleAnswers (-1)⟩ =
          some (msgSuccess, p, [⟨text "on 5\r\n", -1⟩]) ∧
        p.turn ⟨text "u05", sampleAnswers 6⟩ = some (msgSuccess, p, []) ∧
        lastSetting p.lines 5 = some false := by
  refine ⟨startedSite_started, by decide, fun h => ?_, _, rfl, rfl, rfl⟩
  have hcarried := (honestRun_iff startedSite_started.trueOn (by decide)).mp h
  have := hcarried.1 (.up 5) rfl
  rcases this.2 with hon | hon
  · exact absurd hon (by decide)
  · exact absurd hon.2 (by decide)

end XinuConsole.Powerd
