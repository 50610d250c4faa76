import XinuConsole.Powerd.Success
import XinuConsole.Lib.Unwinding

/-!
The back-ends of the power daemon do not disturb each other.

What the daemon holds about an outlet, and what the lines written to the controller
make of it, depend on the clients that name this outlet or turn all of them off. The
others leave it as it is, with a command or without one, and whatever becomes of their
lines.
-/

namespace XinuConsole.Powerd

open Lib

/-- The command that the daemon executes for a client. -/
def Client.command (k : Client) : Option Command :=
  if k.hostsCtl then (getCommand k.received k.recvbuf).bind parse else none

/-- The command names outlet `n`, or all of them. -/
def Client.concerns (n : ℕ) (k : Client) : Bool :=
  k.command.any fun c => c.outlet.all (· = n)

/-- A client is served, and the daemon goes on to accept the next one. -/
def Site.Serves (p : Site) (k : Client) (p' : Site) : Prop :=
  ∃ r, serve p.daemon k = some r ∧ r.running = true ∧ p' = ⟨r.daemon, p.lines ++ written r.writes⟩

/-- What there is about outlet `n`: the descriptor of the line, the element of the cache,
and the last setting that was written. -/
def Site.view (n : ℕ) (p : Site) : ℤ × Option Byte × Option Bool :=
  (p.daemon.gDev, p.daemon.load n, lastSetting p.lines n)

theorem lastSetting_append (lines lines' : List (List Byte)) (n : ℕ) :
    lastSetting (lines ++ lines') n = (lastSetting lines' n).or (lastSetting lines n) := by
  induction lines' using List.reverseRecOn with
  | nil => rw [List.append_nil, lastSetting_nil, Option.none_or]
  | append_singleton lines' line ih =>
      rw [← List.append_assoc, lastSetting_concat, lastSetting_concat, ih, Option.or_assoc]

/-! ### One command -/

namespace Executed

variable {a : Answers} {s s' t t' : State} {c : Command} {ws ws' : List Write} {n : ℕ}

/-- A command for another outlet. -/
theorem frame (h : Executed a s c s' ws) {m : ℕ} (hm : c.outlet = some m) (hne : m ≠ n) :
    s'.gDev = s.gDev ∧ s'.load n = s.load n := by
  have hload (k : ℕ) (hk : k < numOutlets) (hkm : k = m) (v : Byte) :
      State.load ⟨s.outlets.set k v, s.gDev⟩ n = s.load n := by
    rw [State.load_set _ _ hk, if_neg (by omega)]
  cases h with
  | lost | allOff => exact absurd hm (by simp [Command.outlet])
  | upCached | cycle => exact ⟨rfl, rfl⟩
  | @down k hk | @up k hk | @reset k hk =>
      exact ⟨rfl, hload k hk (Option.some.inj hm) _⟩

/-- A command for the outlet does the same in states that agree on it. -/
theorem same (h : Executed a s c s' ws) (h' : Executed a t c t' ws')
    (hc : c.outlet.all (· = n) = true) (hdev : s.gDev = t.gDev) (hload : s.load n = t.load n) :
    ws = ws' ∧ s'.gDev = t'.gDev ∧ s'.load n = t'.load n := by
  cases h with
  | lost hopen =>
      cases h' with
      | lost => exact ⟨rfl, rfl, rfl⟩
      | allOff hopen' => exact absurd hopen hopen'
  | allOff hopen =>
      cases h' with
      | lost hopen' => exact absurd hopen' hopen
      | allOff => exact ⟨rfl, rfl, rfl⟩
  | @down k hk =>
      cases h' with
      | down =>
          refine ⟨by rw [hdev], hdev, ?_⟩
          rw [State.load_set _ _ hk, State.load_set _ _ hk, hload]
  | @upCached k hk hon =>
      obtain rfl : k = n := by simpa [Command.outlet] using hc
      cases h' with
      | upCached => exact ⟨rfl, hdev, hload⟩
      | up _ hoff => exact absurd (hload ▸ hon) hoff
  | @up k hk hoff =>
      obtain rfl : k = n := by simpa [Command.outlet] using hc
      cases h' with
      | upCached _ hon => exact absurd (hload ▸ hon) hoff
      | up =>
          refine ⟨by rw [hdev], hdev, ?_⟩
          rw [State.load_set _ _ hk, State.load_set _ _ hk, hload]
  | @cycle k hk hon =>
      obtain rfl : k = n := by simpa [Command.outlet] using hc
      cases h' with
      | cycle => exact ⟨by rw [hdev], hdev, hload⟩
      | reset _ hoff => exact absurd (hload ▸ hon) hoff
  | @reset k hk hoff =>
      obtain rfl : k = n := by simpa [Command.outlet] using hc
      cases h' with
      | cycle _ hon => exact absurd (hload ▸ hon) hoff
      | reset =>
          refine ⟨by rw [hdev], hdev, ?_⟩
          rw [State.load_set _ _ hk, State.load_set _ _ hk, hload]

end Executed

/-! ### One client -/

/-- What a turn of the loop does to the site. -/
theorem Site.Serves.cases {p p' : Site} {k : Client} (h : p.Serves k p') :
    (k.command = none ∧ p' = p) ∨ ∃ c ws, k.command = some c ∧
      Executed k.answers p.daemon c p'.daemon ws ∧ p'.lines = p.lines ++ written ws := by
  obtain ⟨r, hserve, -, rfl⟩ := h
  have hidle : ∀ running, p = ⟨p.daemon, p.lines ++ written (Served.mk p.daemon none [] none running).writes⟩ :=
    fun _ => by simp [written]
  unfold serve at hserve
  unfold Client.command
  split at hserve
  · next hbarred =>
      cases hserve
      exact .inl ⟨by simp [hbarred], (hidle true).symm⟩
  next hadmitted =>
  rw [Bool.not_eq_false] at hadmitted
  rw [if_pos hadmitted]
  split at hserve
  · next hnone =>
      cases hserve
      exact .inl ⟨by rw [hnone]; rfl, (hidle true).symm⟩
  · next cmd hcmd =>
      obtain ⟨c, hc, -, hexec⟩ := executeCommand_of_valid (validCommand_of_getCommand hcmd)
      rw [hexec] at hserve
      obtain ⟨⟨rv, s', ws⟩, hr, rfl⟩ := Option.map_eq_some_iff.mp hserve
      exact .inr ⟨c, ws, by rw [hcmd]; exact hc, (Command.execute_eq_some.mp hr).2, rfl⟩

/-- The clients that concern an outlet decide what there is about it. -/
theorem unwinds_view {n : ℕ} (h₁ : 1 ≤ n) (hn : n ≤ numOutlets) :
    Unwinds Site.Serves (Client.concerns n) (Site.view n) where
  frame := by
    intro p k p' hother hserves
    rcases hserves.cases with ⟨-, rfl⟩ | ⟨c, ws, hc, hexec, hlines⟩
    · rfl
    have hall : c.outlet.all (· = n) = false := by
      simpa [Client.concerns, hc] using hother
    cases hm : c.outlet with
    | none => exact absurd hall (by simp [hm])
    | some m =>
        have hne : m ≠ n := by simpa [hm] using hall
        obtain ⟨hdev, hload⟩ := hexec.frame hm hne
        have hsetting : lastSetting p'.lines n = lastSetting p.lines n := by
          rw [hlines]
          apply lastSetting_append_of_none
          intro line hline
          obtain ⟨w, hw, rfl⟩ := mem_written hline
          refine hexec.setting_of_not_asks h₁ hn (fun b hasks => ?_) w hw
          cases c with
          | allOff => exact absurd hm (by simp [Command.outlet])
          | down | up | reset => exact hne ((Option.some.inj hm).symm.trans hasks.1.symm)
        rw [Site.view, hdev, hload, hsetting, Site.view]
  same := by
    intro p p' q q' k hmine hview hp hq
    simp only [Site.view, Prod.mk.injEq] at hview ⊢
    obtain ⟨hdev, hload, hlast⟩ := hview
    rcases hp.cases with ⟨hnone, -⟩ | ⟨c, ws, hc, hexec, hlines⟩
    · exact absurd hmine (by simp [Client.concerns, hnone])
    rcases hq.cases with ⟨hnone, -⟩ | ⟨c', ws', hc', hexec', hlines'⟩
    · exact absurd hmine (by simp [Client.concerns, hnone])
    obtain rfl : c = c' := Option.some.inj (hc.symm.trans hc')
    have hall : c.outlet.all (· = n) = true := by
      simpa [Client.concerns, hc] using hmine
    obtain ⟨rfl, hdev', hload'⟩ := hexec.same hexec' hall hdev hload
    refine ⟨hdev', hload', ?_⟩
    rw [hlines, hlines', lastSetting_append, lastSetting_append, hlast]

/-- **Outlets are isolated.** Two runs of the daemon in which the same clients concern
an outlet, in the same order, leave it alike if they found it alike, whoever else is
served in between and whatever the controller does with their lines. -/
theorem outlet_isolated {n : ℕ} (h₁ : 1 ≤ n) (hn : n ≤ numOutlets) {p p' q q' : Site}
    {ks ls : List Client} (hp : Run Site.Serves p ks p') (hq : Run Site.Serves q ls q')
    (hview : p.view n = q.view n)
    (hsame : ks.filter (Client.concerns n) = ls.filter (Client.concerns n)) :
    p'.view n = q'.view n :=
  (unwinds_view h₁ hn).run hp hq hview hsame

/-- A client that is admitted with a command, its line written with result `rv`. -/
def clientOf (cmd : String) (rv : ℤ) : Client :=
  ⟨true, some (text cmd), CharArray.zero _, sampleAnswers rv, 31⟩

/-- Outlet 5 with and without a client whose command for outlet 7 fails. -/
theorem outlet_isolated_u05 : ∃ p q,
    Run Site.Serves startedSite [clientOf "u07" (-1), clientOf "u05" 6] p ∧
      Run Site.Serves startedSite [clientOf "u05" 6] q ∧ p.view 5 = q.view 5 := by
  have hp : ∃ p, Run Site.Serves startedSite [clientOf "u07" (-1), clientOf "u05" 6] p :=
    ⟨_, .cons ⟨_, rfl, rfl, rfl⟩ (.cons ⟨_, rfl, rfl, rfl⟩ (.nil _))⟩
  have hq : ∃ q, Run Site.Serves startedSite [clientOf "u05" 6] q :=
    ⟨_, .cons ⟨_, rfl, rfl, rfl⟩ (.nil _)⟩
  obtain ⟨p, hp⟩ := hp
  obtain ⟨q, hq⟩ := hq
  refine ⟨p, q, hp, hq, outlet_isolated (by decide) (by decide) hp hq rfl ?_⟩
  have hother : Client.concerns 5 (clientOf "u07" (-1)) = false := by decide
  rw [List.filter_cons_of_neg (by simp [hother])]

end XinuConsole.Powerd
