import XinuConsole.Consoled.Session
import XinuConsole.Lib.Locks
import XinuConsole.Lib.Refinement

/-!
The daemon as a service of exclusive locks: its table of rows and the children it
forks, kills and collects implement the locks of `Lib.Locks`.
-/

namespace XinuConsole.Consoled

open Lib Lib.Locks

/-- Who holds a row. -/
def holder (row : Condata) : Option (Holder (List Byte) ℤ ℤ) :=
  if row.conpid = badPid then none else some ⟨row.userName, row.conpid, row.contime⟩

/-- The locks are the numbers of the rows. -/
def board (config : List Condata) : Board ℕ (List Byte) ℤ ℤ := fun i => config[i]?.bind holder

def Effect.seen : Effect → Option (Seen ℕ ℤ)
  | .fork pid row _ => some (.started pid row)
  | .kill pid => some (.killed pid)
  | _ => none

/-- What a step shows: children that are forked, killed and collected. -/
def seen (l : Event × List Effect) : List (Seen ℕ ℤ) :=
  match l.1 with
  | .wait3 pid => .ended pid :: l.2.filterMap Effect.seen
  | _ => l.2.filterMap Effect.seen

theorem filterMap_seen_eq_nil {fx : List Effect} (hkill : ∀ p, Effect.kill p ∉ fx)
    (hfork : fx.filterMap Effect.forked = []) : fx.filterMap Effect.seen = [] := by
  apply List.filterMap_eq_nil_iff.mpr
  intro e he
  cases e with
  | fork pid row peer => exact absurd (List.filterMap_eq_nil_iff.mp hfork _ he) (by simp [Effect.forked])
  | kill pid => exact absurd he (hkill pid)
  | _ => rfl

theorem Logs.seen {fx : List Effect} (h : Logs fx) : fx.filterMap Effect.seen = [] :=
  h.filterMap fun _ => rfl

/-! ### The board along the operations of the table -/

theorem board_eq_some {config : List Condata} {i : ℕ} {h : Holder (List Byte) ℤ ℤ}
    (hi : board config i = some h) :
    ∃ row, config[i]? = some row ∧ row.conpid ≠ badPid ∧ h = ⟨row.userName, row.conpid, row.contime⟩ := by
  obtain ⟨row, hrow, hholder⟩ := Option.bind_eq_some_iff.mp hi
  rw [holder] at hholder
  split at hholder
  · exact absurd hholder (by simp)
  · next hheld => exact ⟨row, hrow, hheld, (Option.some.inj hholder).symm⟩

theorem board_of_row {config : List Condata} {i : ℕ} {row : Condata} (hrow : config[i]? = some row) :
    board config i = holder row := by
  rw [board, hrow, Option.bind_some]

theorem board_modify {config : List Condata} {i : ℕ} {row : Condata} (hrow : config[i]? = some row)
    (f : Condata → Condata) :
    board (config.modify i f) = Function.update (board config) i (holder (f row)) := by
  ext1 j
  by_cases hij : j = i
  · subst hij
    rw [Function.update_self, board, List.getElem?_modify_eq, hrow]
    rfl
  · rw [Function.update_of_ne hij, board, List.getElem?_modify_ne _ _ (Ne.symm hij), board]

theorem board_collectChild (d : Daemon) (childpid : ℤ) :
    board (collectChild d childpid).config = (board d.config).without childpid := by
  ext1 i
  rw [board, collectChild, List.getElem?_map, Board.without, board]
  cases d.config[i]? with
  | none => rfl
  | some row =>
      simp only [Option.map_some, Option.bind_some]
      by_cases hfree : row.conpid = badPid
      · have hfreed : holder (freeRow childpid row) = none := by
          apply if_pos
          rw [freeRow]
          split
          · rfl
          · exact hfree
        rw [hfreed, holder, if_pos hfree, Option.filter_none]
      · have hheld : holder row = some ⟨row.userName, row.conpid, row.contime⟩ := if_neg hfree
        rw [hheld, freeRow]
        by_cases hpid : row.conpid = childpid
        · rw [if_pos hpid, holder, if_pos rfl, Option.filter_some]
          simp [hpid]
        · rw [if_neg hpid, hheld, Option.filter_some]
          simp [hpid]

/-! ### The refinement -/

section Steps

variable {hostsCtl : Addr → List Byte → Bool} {m m' : Machine} {l : Event × List Effect}

/-- A touch renews the lock of the user who holds it. -/
theorem touch_locks {config : List Condata} {i : ℕ} {row : Condata} (hrow : config[i]? = some row)
    (now : ℤ) (user : List Byte) :
    ∃ moves, Run Spec (board config) moves (board (config.modify i (touchRow now user))) ∧
      moves.flatMap Move.seen = [] := by
  rw [board_modify hrow]
  by_cases htouch : row.conpid ≠ badPid ∧ strnequ row.user.val user maxUserName
  · have hheld : board config i = some ⟨row.userName, row.conpid, row.contime⟩ := by
      rw [board_of_row hrow, holder, if_neg htouch.1]
    have hrenewed : holder (touchRow now user row) = some ⟨row.userName, row.conpid, now⟩ := by
      rw [touchRow, if_pos htouch, holder, if_neg htouch.1]
      rfl
    rw [hrenewed]
    exact ⟨[.renew i row.userName now], .single (.renew hheld), rfl⟩
  · rw [touchRow, if_neg htouch, ← board_of_row hrow, Function.update_eq_self]
    exact ⟨[], .nil _, rfl⟩

/-- A row that is taken becomes the lock of a new program. -/
theorem make_locks (hown : Owned m) {i : ℕ} {row : Condata} {pid : ℤ}
    (hrow : m.config[i]? = some row) (hfree : row.conpid = badPid) (hpos : 0 < pid)
    (hnew : ∀ c ∈ m.children, c.pid ≠ pid) (now : ℤ) (user : List Byte) :
    Spec (board m.config) (.grant i ((cstr user).take (maxUserName - 1)) pid now)
      (board (m.config.modify i (lockRow pid now user))) := by
  have hfree' : board m.config i = none := by
    rw [board_of_row hrow, holder, if_pos hfree]
  have hfresh : ∀ j h, board m.config j = some h → h.program ≠ pid := by
    intro j h hj
    obtain ⟨row', hrow', hheld, rfl⟩ := board_eq_some hj
    obtain ⟨c, hc, hcp, -⟩ := hown.rowChild j row' hrow' hheld
    exact fun heq => hnew c hc (hcp.trans heq)
  have hlocked : holder (lockRow pid now user row) =
      some ⟨(cstr user).take (maxUserName - 1), pid, now⟩ := by
    have hheld : (lockRow pid now user row).conpid ≠ badPid := by
      show pid ≠ -1
      omega
    rw [← lockRow_userName pid now user row, holder, if_neg hheld]
    rfl
  rw [board_modify hrow, hlocked]
  exact .grant hfree' hfresh

/-- A request moves one lock or none. -/
theorem request_locks {junk : Reply} {pid now : ℤ} {psa : Addr} {req : Request} (hown : Owned m)
    (hfork : ForkAnswer m.children pid) {r : Daemon × List Effect}
    (h : Processed hostsCtl junk pid now m.daemon psa req r) :
    ∃ moves, Run Spec (board m.config) moves (board r.1.config) ∧
      moves.flatMap Move.seen = r.2.filterMap Effect.seen := by
  cases h with
  | silent logs hlogs => exact ⟨[], .nil _, hlogs.seen.symm⟩
  | told d' logs resp text hlogs hconfig =>
      rw [hconfig]
      exact ⟨[], .nil _, by simp [hlogs.seen, Effect.seen]⟩
  | listed logs hlogs => exact ⟨[], .nil _, by simp [hlogs.seen, Effect.seen]⟩
  | touched i row logs hlogs hadm hcode haddr =>
      have hrow : m.config[i]? = some row := haddr.2
      obtain ⟨moves, hrun, hseen⟩ := touch_locks hrow now req.user.val
      exact ⟨moves, hrun, hseen.trans hlogs.seen.symm⟩
  | made i row logs logs' hlogs hlogs' hadm hcode haddr hfree hpid =>
      obtain ⟨hpos, hnew⟩ : 0 < pid ∧ ∀ c ∈ m.children, c.pid ≠ pid := by
        rcases hfork with hfail | hpos
        · omega
        · exact hpos
      refine ⟨_, .single (make_locks hown haddr.2 hfree hpos hnew now req.user.val), ?_⟩
      simp [Move.seen, hlogs.seen, hlogs'.seen, Effect.seen]
  | broken i row logs hlogs hadm hcode haddr hheld =>
      have hboard : board m.config i = some ⟨row.userName, row.conpid, row.contime⟩ := by
        rw [board_of_row (show m.config[i]? = some row from haddr.2), holder, if_neg hheld]
      refine ⟨[.kill row.conpid], .single (.kill hboard), ?_⟩
      simp [Move.seen, hlogs.seen, List.filterMap_cons, Effect.seen]

theorem step_locks (hown : Owned m) (hs : Step hostsCtl m l m') :
    ∃ moves, Run Spec (board m.config) moves (board m'.config) ∧
      moves.flatMap Move.seen = seen l := by
  cases hs.cases with
  | exits pid => exact ⟨[], .nil _, rfl⟩
  | received e fx pending hphase hkill hfork he =>
      refine ⟨[], .nil _, ?_⟩
      rcases he with rfl | ⟨psa, d, rfl⟩ <;> exact (filterMap_seen_eq_nil hkill hfork).symm
  | wait3 childpid fx pending hphase hkill hfork hdead =>
      refine ⟨[.ended childpid], .single ?_, ?_⟩
      · show Spec (board m.config) _ (board (collectChild m.daemon childpid).config)
        rw [board_collectChild]
        exact .ended
      · rw [seen, filterMap_seen_eq_nil hkill hfork]
        rfl
  | noneDead pending hphase halive => exact ⟨[], .nil _, rfl⟩
  | serve junk pid now psa req r hphase hfork hr hserved =>
      exact request_locks hown hfork (hr ▸ processRequest_processed hostsCtl junk pid now _ psa req)

/-- Each step of the daemon is none, or one, of the locks. -/
theorem refines_locks (hostsCtl : Addr → List Byte → Bool) :
    Refines (Step hostsCtl) Spec Owned (fun m => board m.config) seen Move.seen where
  keeps := Owned.step
  step := step_locks

theorem board_of_init (h : Init m) : board m.config = fun _ => none := by
  ext1 i
  cases hi : board m.config i with
  | none => rfl
  | some holder =>
      obtain ⟨row, hrow, hheld, -⟩ := board_eq_some hi
      exact absurd (h.free row (List.mem_of_getElem? hrow)).1 hheld

/-- **The daemon implements the locks.** What any run shows of the children that are
forked, killed and collected, a run of the locks shows that begins with all of them
free and ends with the holders that the table names. -/
theorem daemon_refines_locks {labels : List (Event × List Effect)} (hinit : Init m)
    (hr : Run (Step hostsCtl) m labels m') :
    ∃ moves, Run Spec (fun _ => none) moves (board m'.config) ∧
      moves.flatMap Move.seen = labels.flatMap seen := by
  rw [← board_of_init hinit]
  exact (refines_locks hostsCtl).run (.of_init hinit) hr

end Steps

/-- Ann makes a connection to `argo` and breaks it. -/
def annBreaks : List Event :=
  sampleRound (sampleRequest reqMakeConnection "ann" "argo") 7 100 ++
    sampleRound (sampleRequest reqBreakConnection "ann" "argo") (-1) 200

theorem daemon_refines_locks_ann :
    ∃ labels m, Run (Step noWrappers) sampleMachine labels m ∧ labels.map Prod.fst = annBreaks ∧
      ∃ moves, Run Spec (fun _ => none) moves (board m.config) ∧
        moves.flatMap Move.seen = labels.flatMap seen := by
  have h : (after noWrappers sampleMachine annBreaks).isSome = true := by decide
  obtain ⟨labels, hr, hlabels⟩ := run_of_after (Option.some_get h).symm
  exact ⟨labels, _, hr, hlabels, daemon_refines_locks sampleMachine_init hr⟩

/-- **At most one program a row.** In what any run shows, a child is forked for a row
only when every child forked for it before was collected, and under a number that no
uncollected one has; and only such children are killed. -/
theorem daemon_orderly {hostsCtl : Addr → List Byte → Bool} {m m' : Machine}
    {labels : List (Event × List Effect)} (hinit : Init m) (hr : Run (Step hostsCtl) m labels m') :
    Orderly (labels.flatMap seen) := by
  refine (refines_locks hostsCtl).traces (.of_init hinit) hr fun moves b hmoves => ?_
  exact orderly_run (fun i => congrFun (board_of_init hinit) i) hmoves

theorem daemon_orderly_ann :
    ∃ labels m, Run (Step noWrappers) sampleMachine labels m ∧ labels.map Prod.fst = annBreaks ∧
      Orderly (labels.flatMap seen) := by
  have h : (after noWrappers sampleMachine annBreaks).isSome = true := by decide
  obtain ⟨labels, hr, hlabels⟩ := run_of_after (Option.some_get h).symm
  exact ⟨labels, _, hr, hlabels, daemon_orderly sampleMachine_init hr⟩

end XinuConsole.Consoled
