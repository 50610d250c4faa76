import XinuConsole.Consoled.Shutdown

/-!
`CleanUp` of `src/xinu-consoled.c`: which children a signal handler kills.

`CleanUp` trusts the table. While `MakeConnection` and `findDeadChildren` are at
work the table is behind the system by one child, so the invariant is about the
table as it will be once the assignments under way are done (`settled`).
-/

namespace XinuConsole.Consoled.Shutdown

open Lib ConnectUtils

/-- Every child that was forked and not collected was sent `SIGKILL`, and no
other process was. -/
def Complete (s : State) : Prop := (∀ c ∈ s.children, c.pid ∈ s.killed) ∧ s.strays = []

/-- The table is not up to date: a child was forked whose number is not in its
row yet, or a child was collected whose number still is. -/
def Exposed (s : State) : Prop :=
  match s.point with
  | .made _ _ _ .conpid => True
  | .reaping _ childpid _ _ => ∃ row ∈ s.daemon.config, row.conpid = childpid
  | _ => False

/-- Signals are delivered only while the table is up to date. -/
def Timely (s : State) (l : Event × List Effect) : Prop := ∀ sig, l.1 = .signal sig → ¬Exposed s

section Daemon

variable {hostsCtl : Addr → List Byte → Bool} {s s' : State}

/-! ### The table once it is up to date -/

/-- The table after the assignments that are under way. -/
def settled (s : State) : List Condata :=
  match s.point with
  | .made req i pid .conpid => s.daemon.config.modify i fun row => lockMember req pid 0 row .conpid
  | .reaping _ childpid _ _ => s.daemon.config.map (freeRow childpid)
  | _ => s.daemon.config

/-- The daemon of the coarse model that is up to date. -/
def State.machine (s : State) : Machine :=
  { daemon := { s.daemon with config := settled s }, children := s.children, phase := .waiting }

/-- What holds at a point. -/
def AtPoint (s : State) : Prop :=
  match s.point with
  | .made _ i pid .conpid =>
      0 < pid ∧ pid ∉ s.killed ∧ ∃ row, s.daemon.config[i]? = some row ∧ row.conpid = badPid
  | .reaping _ childpid j next =>
      0 < childpid ∧ (∀ c ∈ s.children, c.pid ≠ childpid) ∧
        (∀ (k : ℕ) (row : Condata), k < j → s.daemon.config[k]? = some row →
          row.conpid ≠ childpid) ∧
        (next ≠ .user → ∀ row, s.daemon.config[j]? = some row → row.conpid = childpid)
  | .cleaning _ j => ∀ c ∈ s.children, ∀ i < j, c.row = some i → c.pid ∈ s.killed
  | .cleaned _ => ∀ c ∈ s.children, c.pid ∈ s.killed
  | _ => True

/-- The invariant of the runs in which signals come in time. -/
structure Sound (s : State) : Prop where
  owned : Owned s.machine
  strays : s.strays = []
  inherited : ∀ c ∈ s.children, c.row = none → c.pid ∈ s.killed
  uncollected : ∀ p ∈ s.killed, ∃ c ∈ s.children, c.pid = p
  point : AtPoint s

theorem freeRow_conpid (childpid : ℤ) (row : Condata) :
    (freeRow childpid row).conpid = if row.conpid = childpid then badPid else row.conpid := by
  unfold freeRow
  split <;> rfl

theorem settled_of_not_exposed (h : ¬Exposed s) : settled s = s.daemon.config := by
  unfold Exposed at h
  unfold settled
  split
  · next hpoint => simp [hpoint] at h
  · next hpoint =>
      simp only [hpoint, not_exists, not_and] at h
      exact map_freeRow h
  · rfl

theorem forall_exitChild {P : ℤ → Option ℕ → Prop} {children : List Child}
    (h : ∀ c ∈ children, P c.pid c.row) (pid : ℤ) :
    ∀ c ∈ children.map (exitChild pid), P c.pid c.row := by
  intro c hc
  obtain ⟨c', hc', rfl⟩ := List.mem_map.mp hc
  have := h c' hc'
  unfold exitChild
  split <;> exact this

theorem kill_of_child {p : ℤ} (h : ∃ c ∈ s.children, c.pid = p) :
    s.kill p = { s with killed := p :: s.killed } := if_pos h

/-- Kills of children are recorded with the children. -/
theorem foldl_kill {ps : List ℤ} (h : ∀ p ∈ ps, ∃ c ∈ s.children, c.pid = p) :
    ps.foldl State.kill s = { s with killed := ps.reverse ++ s.killed } := by
  induction ps generalizing s with
  | nil => rfl
  | cons p ps ih =>
      rw [List.foldl_cons, kill_of_child (h p List.mem_cons_self),
        @ih { s with killed := p :: s.killed } fun q hq => h q (List.mem_cons_of_mem _ hq)]
      simp

/-- Only the numbers in the table matter to ownership. -/
theorem owned_of_conpid (h : Owned s.machine) (hchildren : s'.children = s.children)
    (hconfig : (settled s').map Condata.conpid = (settled s).map Condata.conpid) :
    Owned s'.machine := by
  have : Owned { daemon := s'.machine.daemon, children := s.machine.children, phase := .waiting } :=
    h.of_conpid hconfig
  rw [State.machine, hchildren]
  exact this

namespace Sound

theorem of_init (h : Init s) : Sound s where
  owned := by
    have hsettled : settled s = s.daemon.config := by simp [settled, h.point]
    refine Owned.of_init ⟨fun row hrow => h.free row ?_, ?_, ?_, rfl⟩
    · rw [← hsettled]
      exact hrow
    · simp [State.machine, h.children]
    · simp [State.machine, h.children]
  strays := h.strays
  inherited := by simp [h.children]
  uncollected := by simp [h.killed]
  point := by simp [AtPoint, h.point]

theorem exits (h : Sound s) (pid : ℤ) :
    Sound { s with children := s.children.map (exitChild pid) } where
  owned := h.owned.exits pid
  strays := h.strays
  inherited := forall_exitChild (P := fun p r => r = none → p ∈ s.killed) h.inherited pid
  uncollected p hp := by
    obtain ⟨c, hc, hpid⟩ := h.uncollected p hp
    exact ⟨_, List.mem_map_of_mem hc, (exitChild_pid pid c).trans hpid⟩
  point := by
    have hpoint := h.point
    unfold AtPoint at hpoint ⊢
    dsimp only
    split
    · next hat => simpa [hat] using hpoint
    · next childpid j next hat =>
        simp only [hat] at hpoint
        exact ⟨hpoint.1, forall_exitChild (P := fun p _ => p ≠ childpid) hpoint.2.1 pid, hpoint.2.2⟩
    · next j hat =>
        simp only [hat] at hpoint
        exact forall_exitChild (P := fun p r => ∀ i < j, r = some i → p ∈ s.killed) hpoint pid
    · next hat =>
        simp only [hat] at hpoint
        exact forall_exitChild (P := fun p _ => p ∈ s.killed) hpoint pid
    · trivial

theorem moved (h : Sound s) {phase : Phase} (hpoint : s.point = .main phase) (phase' : Phase) :
    Sound { s with point := .main phase' } where
  owned := owned_of_conpid h.owned rfl (by simp [settled, hpoint])
  strays := h.strays
  inherited := h.inherited
  uncollected := h.uncollected
  point := trivial

/-- `wait3` returns: the table is behind by the child's row. -/
theorem reaped (h : Sound s) {childpid : ℤ} {pending : Option (Addr × Request)}
    (hpoint : s.point = .main (.sweeping pending)) (hpid : ∃ c ∈ s.children, c.pid = childpid) :
    Sound { s with
      children := s.children.filter fun c => c.pid ≠ childpid
      killed := s.killed.filter fun p => p ≠ childpid
      point := .reaping pending childpid 0 .user } where
  owned := by
    have hsettled : settled s = s.daemon.config := by simp [settled, hpoint]
    have hcollected := h.owned.wait3 childpid
    simp only [State.machine, hsettled] at hcollected
    exact hcollected
  strays := h.strays
  inherited c hc hrow := by
    obtain ⟨hc, hne⟩ := List.mem_filter.mp hc
    exact List.mem_filter.mpr ⟨h.inherited c hc hrow, hne⟩
  uncollected p hp := by
    obtain ⟨hp, hne⟩ := List.mem_filter.mp hp
    obtain ⟨c, hc, rfl⟩ := h.uncollected p hp
    exact ⟨c, List.mem_filter.mpr ⟨hc, hne⟩, rfl⟩
  point := by
    obtain ⟨c, hc, rfl⟩ := hpid
    refine ⟨h.owned.positive c hc, fun c' hc' => ?_, fun k row hk => absurd hk (by omega), by simp⟩
    simpa using (List.mem_filter.mp hc').2

theorem swept (h : Sound s) {pending : Option (Addr × Request)} {childpid : ℤ} {j : ℕ} {next : Free}
    (hpoint : s.point = .reaping pending childpid j next) (hend : s.daemon.config[j]? = none) :
    Sound { s with point := .main (.sweeping pending) } where
  owned := by
    refine owned_of_conpid h.owned rfl ?_
    have hat := h.point
    simp only [AtPoint, hpoint] at hat
    -- the loop has seen every row
    have hrows : ∀ row ∈ s.daemon.config, row.conpid ≠ childpid := by
      intro row hrow
      obtain ⟨k, hk, hget⟩ := List.getElem_of_mem hrow
      have hlen : s.daemon.config.length ≤ j := List.getElem?_eq_none_iff.mp hend
      exact hat.2.2.1 k row (by omega) (by rw [List.getElem?_eq_getElem hk, hget])
    simp [settled, hpoint, map_freeRow hrows]
  strays := h.strays
  inherited := h.inherited
  uncollected := h.uncollected
  point := trivial

theorem passed (h : Sound s) {pending : Option (Addr × Request)} {childpid : ℤ} {j : ℕ}
    {row : Condata} (hpoint : s.point = .reaping pending childpid j .user)
    (hrow : s.daemon.config[j]? = some row) (hne : row.conpid ≠ childpid) :
    Sound { s with point := .reaping pending childpid (j + 1) .user } where
  owned := owned_of_conpid h.owned rfl (by simp [settled, hpoint])
  strays := h.strays
  inherited := h.inherited
  uncollected := h.uncollected
  point := by
    have hat := h.point
    simp only [AtPoint, hpoint] at hat
    refine ⟨hat.1, hat.2.1, fun k row' hk hrow' => ?_, by simp⟩
    rcases Nat.lt_succ_iff_lt_or_eq.mp hk with hk | rfl
    · exact hat.2.2.1 k row' hk hrow'
    · obtain rfl : row = row' := Option.some.inj (hrow.symm.trans hrow')
      exact hne

theorem freed (h : Sound s) {pending : Option (Addr × Request)} {childpid : ℤ} {j : ℕ}
    {next : Free} {row : Condata} (hpoint : s.point = .reaping pending childpid j next)
    (hrow : s.daemon.config[j]? = some row) (hheld : next = .user → row.conpid = childpid) :
    Sound (s.assign j (fun row => freeMember row next) (afterFree pending childpid j next)) := by
  have hat := h.point
  simp only [AtPoint, hpoint] at hat
  obtain ⟨hpos, hgone, hbefore, hinside⟩ := hat
  have hpid : row.conpid = childpid := by
    by_cases hnext : next = .user
    · exact hheld hnext
    · exact hinside hnext row hrow
  -- what an assignment leaves of the row is freed like the row itself
  have hsame : ∀ k : ℕ, (((s.daemon.config.modify j fun row => freeMember row next).map
      (freeRow childpid)).map Condata.conpid)[k]? =
      ((s.daemon.config.map (freeRow childpid)).map Condata.conpid)[k]? := by
    intro k
    simp only [List.getElem?_map, List.getElem?_modify]
    by_cases hjk : j = k
    · subst hjk
      cases next <;> simp [hrow, freeRow_conpid, freeMember, hpid]
    · simp [hjk]
  refine ⟨owned_of_conpid h.owned rfl ?_, h.strays, h.inherited, h.uncollected, ?_⟩
  · have hsettled : settled s = s.daemon.config.map (freeRow childpid) := by simp [settled, hpoint]
    rw [hsettled]
    cases next <;> exact List.ext_getElem? hsame
  · have hother : ∀ (k : ℕ) (row' : Condata), k < j →
        (s.daemon.config.modify j fun row => freeMember row next)[k]? = some row' →
        row'.conpid ≠ childpid := by
      intro k row' hk hrow'
      rw [List.getElem?_modify_ne _ _ (by omega)] at hrow'
      exact hbefore k row' hk hrow'
    have hthis : ∀ row', (s.daemon.config.modify j fun row => freeMember row next)[j]? = some row' →
        row' = freeMember row next := by
      intro row' hrow'
      rw [List.getElem?_modify_eq, hrow] at hrow'
      exact (Option.some.inj hrow').symm
    cases next with
    | user => exact ⟨hpos, hgone, hother, fun _ row' hrow' => (hthis row' hrow') ▸ hpid⟩
    | contime => exact ⟨hpos, hgone, hother, fun _ row' hrow' => (hthis row' hrow') ▸ hpid⟩
    | conpid =>
        refine ⟨hpos, hgone, fun k row' hk hrow' => ?_, by simp⟩
        rcases Nat.lt_succ_iff_lt_or_eq.mp hk with hk | rfl
        · exact hother k row' hk hrow'
        · rw [hthis row' hrow']
          show badPid ≠ childpid
          rw [badPid]
          omega

/-- A request that forks no child kills at most the child of a row. -/
theorem served (h : Sound s) {now : ℤ} {psa : Addr} {req : Request} {r : Daemon × List Effect}
    (hpoint : s.point = .main (.serving psa req))
    (hserved : Served hostsCtl (-1) now s.daemon psa req r) :
    Sound ((r.2.filterMap Effect.killed).foldl State.kill
      { s with daemon := r.1, point := .main .waiting }) := by
  have hsettled : settled s = s.daemon.config := by simp [settled, hpoint]
  have hconpid : r.1.config.map Condata.conpid = s.daemon.config.map Condata.conpid := by
    cases hserved with
    | same hconfig => rw [hconfig]
    | touched i row hadm hcode haddr hheld huser hconfig =>
        rw [hconfig]
        exact map_modify (touchRow_conpid now req.user.val) _ i
    | made i row hadm hcode haddr hfree hpid => exact absurd hpid (by decide)
  have hkills : ∀ p ∈ r.2.filterMap Effect.killed, ∃ c ∈ s.children, c.pid = p := by
    intro p hp
    obtain ⟨e, he, hkilled⟩ := List.mem_filterMap.mp hp
    obtain rfl : e = .kill p := by cases e <;> simp_all [Effect.killed]
    cases hserved with
    | same hconfig hfork hkill =>
        obtain ⟨-, -, i, row, haddr, hheld, rfl⟩ := hkill p he
        obtain ⟨c, hc, hpid, -⟩ := h.owned.rowChild i row (by
          show (settled s)[i]? = some row
          rw [hsettled]
          exact haddr.2) hheld
        exact ⟨c, hc, hpid⟩
    | touched i row hadm hcode haddr hheld huser hconfig hfork hkill => exact absurd he (hkill p)
    | made i row hadm hcode haddr hfree hpid => exact absurd hpid (by decide)
  rw [@foldl_kill { s with daemon := r.1, point := .main .waiting } _ hkills]
  refine ⟨owned_of_conpid h.owned rfl ?_, h.strays, fun c hc hrow => ?_, fun p hp => ?_, trivial⟩
  · rw [hsettled]
    exact hconpid
  · exact List.mem_append_right _ (h.inherited c hc hrow)
  · rcases List.mem_append.mp hp with hp | hp
    · exact hkills p (List.mem_reverse.mp hp)
    · exact h.uncollected p hp

/-- `fork` returns: the table is behind by the new child. -/
theorem forked (h : Sound s) {pid : ℤ} {psa : Addr} {req : Request} {i : ℕ} {row : Condata}
    (hpoint : s.point = .main (.serving psa req)) (hrow : s.daemon.config[i]? = some row)
    (hfree : row.conpid = badPid) (hpid : 0 < pid) (hnew : ∀ c ∈ s.children, c.pid ≠ pid) :
    Sound { s with
      children := s.children ++ [⟨pid, some i, false⟩]
      point := .made req i pid .conpid } where
  owned := by
    have hsettled : settled s = s.daemon.config := by simp [settled, hpoint]
    have hrow' : (settled s)[i]? = some row := hsettled ▸ hrow
    have hmade := @Owned.made s.machine h.owned
      { s.daemon with config := (settled s).modify i (lockRow pid 0 req.user.val) }
      [.fork pid i psa] i row pid 0 req.user.val hrow' hfree hpid.le (.inr ⟨hpid, hnew⟩) rfl rfl
    rw [hsettled] at hmade
    exact hmade.of_conpid (by
      show (s.daemon.config.modify i _).map Condata.conpid = (s.daemon.config.modify i _).map _
      apply List.ext_getElem?
      intro k
      simp only [List.getElem?_map, List.getElem?_modify]
      by_cases hik : i = k <;> cases s.daemon.config[k]? <;> simp [hik, lockMember, lockRow])
  strays := h.strays
  inherited c hc hnone := by
    rcases List.mem_append.mp hc with hc | hc
    · exact h.inherited c hc hnone
    · obtain rfl := List.mem_singleton.mp hc
      exact absurd hnone (by simp)
  uncollected p hp := by
    obtain ⟨c, hc, hpid⟩ := h.uncollected p hp
    exact ⟨c, List.mem_append_left _ hc, hpid⟩
  point := by
    refine ⟨hpid, fun hmem => ?_, row, hrow, hfree⟩
    obtain ⟨c, hc, hpid⟩ := h.uncollected pid hmem
    exact hnew c hc hpid

theorem locked (h : Sound s) {now : ℤ} {req : Request} {i : ℕ} {pid : ℤ} {next : Lock}
    (hpoint : s.point = .made req i pid next) :
    Sound (s.assign i (fun row => lockMember req pid now row next) (afterLock req i pid next)) where
  owned := by
    refine owned_of_conpid h.owned rfl ?_
    cases next with
    | conpid =>
        have hsettled : settled s =
          s.daemon.config.modify i fun row => lockMember req pid 0 row .conpid := by
          simp [settled, hpoint]
        rw [hsettled]
        rfl
    | contime =>
        have hsettled : settled s = s.daemon.config := by simp [settled, hpoint]
        rw [hsettled]
        exact map_modify (f := fun row => lockMember req pid now row .contime) (fun row => rfl) _ i
    | user =>
        have hsettled : settled s = s.daemon.config := by simp [settled, hpoint]
        rw [hsettled]
        exact map_modify (f := fun row => lockMember req pid now row .user) (fun row => rfl) _ i
  strays := h.strays
  inherited := h.inherited
  uncollected := h.uncollected
  point := by cases next <;> trivial

/-- A handler that starts while the table is up to date. -/
theorem signalled (h : Sound s) (hexposed : ¬Exposed s) (sig : Signal) :
    Sound { s with point := .cleaning sig 0 } where
  owned := owned_of_conpid h.owned rfl (by rw [settled_of_not_exposed hexposed]; rfl)
  strays := h.strays
  inherited := h.inherited
  uncollected := h.uncollected
  point c hc i hi := absurd hi (by omega)

/-- A row that `CleanUp` finds held is held by a child, which is killed. -/
theorem killed (h : Sound s) {sig : Signal} {j : ℕ} {row : Condata}
    (hpoint : s.point = .cleaning sig j) (hrow : s.daemon.config[j]? = some row)
    (hheld : row.conpid ≠ badPid) :
    Sound (State.kill { s with point := .cleaning sig (j + 1) } row.conpid) := by
  have hsettled : settled s = s.daemon.config := by simp [settled, hpoint]
  have hrow' : (settled s)[j]? = some row := hsettled ▸ hrow
  obtain ⟨c, hc, hpid, -⟩ := h.owned.rowChild j row hrow' hheld
  have hbefore := h.point
  simp only [AtPoint, hpoint] at hbefore
  rw [@kill_of_child { s with point := .cleaning sig (j + 1) } _ ⟨c, hc, hpid⟩]
  refine ⟨owned_of_conpid h.owned rfl (by rw [hsettled]; rfl), h.strays, fun c hc hnone => ?_,
    fun p hp => ?_, fun c hc i hi hci => ?_⟩
  · exact List.mem_cons_of_mem _ (h.inherited c hc hnone)
  · rcases List.mem_cons.mp hp with rfl | hp
    · exact ⟨c, hc, hpid⟩
    · exact h.uncollected p hp
  · rcases Nat.lt_succ_iff_lt_or_eq.mp hi with hi | rfl
    · exact List.mem_cons_of_mem _ (hbefore c hc i hi hci)
    · obtain ⟨row₁, hrow₁, hpid₁⟩ := h.owned.childRow c hc i hci
      obtain rfl : row₁ = row := Option.some.inj (hrow₁.symm.trans hrow')
      exact hpid₁ ▸ List.mem_cons_self

/-- A row that `CleanUp` finds free is no child's. -/
theorem spared (h : Sound s) {sig : Signal} {j : ℕ} {row : Condata}
    (hpoint : s.point = .cleaning sig j) (hrow : s.daemon.config[j]? = some row)
    (hfree : row.conpid = badPid) : Sound { s with point := .cleaning sig (j + 1) } where
  owned := owned_of_conpid h.owned rfl (by simp [settled, hpoint])
  strays := h.strays
  inherited := h.inherited
  uncollected := h.uncollected
  point c hc i hi hci := by
    have hsettled : settled s = s.daemon.config := by simp [settled, hpoint]
    have hbefore := h.point
    simp only [AtPoint, hpoint] at hbefore
    rcases Nat.lt_succ_iff_lt_or_eq.mp hi with hi | rfl
    · exact hbefore c hc i hi hci
    · obtain ⟨row₁, hrow₁, hpid₁⟩ := h.owned.childRow c hc i hci
      have hrow' : (settled s)[i]? = some row := hsettled ▸ hrow
      obtain rfl : row₁ = row := Option.some.inj (hrow₁.symm.trans hrow')
      exact absurd (hpid₁.symm.trans hfree) (h.owned.row_held hc)

/-- `CleanUp` has gone through all rows, so through the row of every child. -/
theorem finished (h : Sound s) {sig : Signal} {j : ℕ} (hpoint : s.point = .cleaning sig j)
    (hend : s.daemon.config[j]? = none) : Sound { s with point := .cleaned sig } where
  owned := owned_of_conpid h.owned rfl (by simp [settled, hpoint])
  strays := h.strays
  inherited := h.inherited
  uncollected := h.uncollected
  point := by
    intro c hc
    have hsettled : settled s = s.daemon.config := by simp [settled, hpoint]
    have hbefore := h.point
    simp only [AtPoint, hpoint] at hbefore
    cases hci : c.row with
    | none => exact h.inherited c hc hci
    | some i =>
        obtain ⟨row, hrow, -⟩ := h.owned.childRow c hc i hci
        have hrow' : s.daemon.config[i]? = some row := hsettled ▸ hrow
        have hi : i < s.daemon.config.length := (List.getElem?_eq_some_iff.mp hrow').1
        have hlen : s.daemon.config.length ≤ j := List.getElem?_eq_none_iff.mp hend
        exact hbefore c hc i (by omega) hci

theorem exited (h : Sound s) {sig : Signal} (hpoint : s.point = .cleaned sig) :
    Sound { s with point := .stopped } where
  owned := owned_of_conpid h.owned rfl (by simp [settled, hpoint])
  strays := h.strays
  inherited := h.inherited
  uncollected := h.uncollected
  point := trivial

/-- The children that the next image inherits have all been killed. -/
theorem execed (h : Sound s) {d : Daemon} {sig : Signal} (hpoint : s.point = .cleaned sig)
    (hfree : ∀ row ∈ d.config, row.conpid = badPid ∧ row.userName = []) :
    Sound { s with
      daemon := d
      children := s.children.map fun c => { c with row := none }
      point := .main .waiting } := by
  have hkilled := h.point
  simp only [AtPoint, hpoint] at hkilled
  refine ⟨Owned.of_init ⟨hfree, fun c hc => ?_, ?_, rfl⟩, h.strays, fun c hc _ => ?_,
    fun p hp => ?_,
    trivial⟩
  · obtain ⟨c', hc', rfl⟩ := List.mem_map.mp hc
    exact ⟨rfl, h.owned.positive c' hc'⟩
  · have hpids := h.owned.nodup
    show ((s.children.map fun c => { c with row := none }).map Child.pid).Nodup
    rw [List.map_map]
    exact hpids
  · obtain ⟨c', hc', rfl⟩ := List.mem_map.mp hc
    exact hkilled c' hc'
  · obtain ⟨c, hc, hpid⟩ := h.uncollected p hp
    exact ⟨_, List.mem_map_of_mem hc, hpid⟩

/-- One case per kind of step. -/
theorem step {l : Event × List Effect} (h : Sound s) (hs : Step hostsCtl s l s')
    (htimely : Timely s l) : Sound s' := by
  cases hs.cases with
  | exits pid => exact h.exits pid
  | moved e fx phase phase' hpoint => exact h.moved hpoint phase'
  | reaped childpid fx pending hpoint hpid => exact h.reaped hpoint hpid
  | swept pending childpid j next hpoint hend => exact h.swept hpoint hend
  | passed pending childpid j row hpoint hrow hne => exact h.passed hpoint hrow hne
  | freed pending childpid j next row hpoint hrow hheld => exact h.freed hpoint hrow hheld
  | served junk now psa req r hpoint hserved => exact h.served hpoint hserved
  | forked pid fx psa req i row hpoint hrow hfree hpid hnew =>
      exact h.forked hpoint hrow hfree hpid hnew
  | locked now req i pid next hpoint => exact h.locked hpoint
  | signalled sig => exact h.signalled (htimely sig rfl) sig
  | finished sig j hpoint hend => exact h.finished hpoint hend
  | killed sig j row hpoint hrow hheld => exact h.killed hpoint hrow hheld
  | spared sig j row hpoint hrow hfree => exact h.spared hpoint hrow hfree
  | exited sig fx hpoint => exact h.exited hpoint
  | execed d sig hpoint hfree => exact h.execed hpoint hfree

theorem run {labels : List (Event × List Effect)} (h : Sound s)
    (hr : Run (fun s l s' => Step hostsCtl s l s' ∧ Timely s l) s labels s') : Sound s' :=
  hr.invariant (fun _ _ _ h hs => h.step hs.1 hs.2) h

theorem complete (h : Sound s) {sig : Signal} (hpoint : s.point = .cleaned sig) : Complete s := by
  have hkilled := h.point
  simp only [AtPoint, hpoint] at hkilled
  exact ⟨hkilled, h.strays⟩

end Sound

/-! ### Signals that come too early -/

/-- A handler is running or has ended the daemon. -/
def Point.Handler : Point → Prop
  | .cleaning _ _ => True
  | .cleaned _ => True
  | .stopped => True
  | _ => False

/-- A step of a handler that does not start the next image. -/
inductive Handled (s : State) : State → Prop
  | exits (pid : ℤ) : Handled s { s with children := s.children.map (exitChild pid) }
  | again (sig : Signal) : Handled s { s with point := .cleaning sig 0 }
  | finished (sig : Signal) (j : ℕ) (hpoint : s.point = .cleaning sig j)
      (hend : s.daemon.config[j]? = none) : Handled s { s with point := .cleaned sig }
  | killed (sig : Signal) (j : ℕ) (row : Condata) (hpoint : s.point = .cleaning sig j)
      (hrow : s.daemon.config[j]? = some row) (hheld : row.conpid ≠ badPid) :
      Handled s (State.kill { s with point := .cleaning sig (j + 1) } row.conpid)
  | spared (sig : Signal) (j : ℕ) (row : Condata) (hpoint : s.point = .cleaning sig j)
      (hrow : s.daemon.config[j]? = some row) (hfree : row.conpid = badPid) :
      Handled s { s with point := .cleaning sig (j + 1) }
  | exited (sig : Signal) (hpoint : s.point = .cleaned sig) : Handled s { s with point := .stopped }

theorem Step.handled {l : Event × List Effect} (hs : Step hostsCtl s l s')
    (hin : s.point.Handler) (hexec : ∀ d, l.1 ≠ .exec d) : Handled s s' := by
  cases hs.cases with
  | exits pid => exact .exits pid
  | signalled sig => exact .again sig
  | finished sig j hpoint hend => exact .finished sig j hpoint hend
  | killed sig j row hpoint hrow hheld => exact .killed sig j row hpoint hrow hheld
  | spared sig j row hpoint hrow hfree => exact .spared sig j row hpoint hrow hfree
  | exited sig fx hpoint => exact .exited sig hpoint
  | execed d => exact absurd rfl (hexec d)
  | moved _ _ _ _ hpoint => simp [hpoint, Point.Handler] at hin
  | reaped _ _ _ hpoint => simp [hpoint, Point.Handler] at hin
  | swept _ _ _ _ hpoint => simp [hpoint, Point.Handler] at hin
  | passed _ _ _ _ hpoint => simp [hpoint, Point.Handler] at hin
  | freed _ _ _ _ _ hpoint => simp [hpoint, Point.Handler] at hin
  | served _ _ _ _ _ hpoint => simp [hpoint, Point.Handler] at hin
  | forked _ _ _ _ _ _ hpoint => simp [hpoint, Point.Handler] at hin
  | locked _ _ _ _ _ hpoint => simp [hpoint, Point.Handler] at hin

theorem kill_cases (s : State) (p : ℤ) :
    (∃ c ∈ s.children, c.pid = p) ∧ s.kill p = { s with killed := p :: s.killed } ∨
      (∀ c ∈ s.children, c.pid ≠ p) ∧ s.kill p = { s with strays := p :: s.strays } := by
  by_cases h : ∃ c ∈ s.children, c.pid = p
  · exact .inl ⟨h, if_pos h⟩
  · exact .inr ⟨fun c hc hpid => h ⟨c, hc, hpid⟩, if_neg h⟩

/-- A child whose number is in no row is not killed. -/
structure Missed (pid : ℤ) (s : State) : Prop where
  point : s.point.Handler
  child : ∃ c ∈ s.children, c.pid = pid
  notKilled : pid ∉ s.killed
  noRow : ∀ (j : ℕ) (row : Condata), s.daemon.config[j]? = some row → row.conpid ≠ pid

theorem Missed.handled {pid : ℤ} (h : Missed pid s) (hs : Handled s s') : Missed pid s' := by
  cases hs with
  | exits p =>
      obtain ⟨c, hc, hpid⟩ := h.child
      exact ⟨h.point, ⟨_, List.mem_map_of_mem hc, (exitChild_pid p c).trans hpid⟩, h.notKilled,
        h.noRow⟩
  | again sig => exact ⟨trivial, h.child, h.notKilled, h.noRow⟩
  | finished sig => exact ⟨trivial, h.child, h.notKilled, h.noRow⟩
  | spared sig j => exact ⟨trivial, h.child, h.notKilled, h.noRow⟩
  | exited sig => exact ⟨trivial, h.child, h.notKilled, h.noRow⟩
  | killed sig j row hpoint hrow hheld =>
      have hne : pid ≠ row.conpid := (h.noRow j row hrow).symm
      rcases kill_cases { s with point := .cleaning sig (j + 1) } row.conpid with ⟨-, hk⟩ | ⟨-, hk⟩
      · rw [hk]
        exact ⟨trivial, h.child, List.not_mem_cons_of_ne_of_not_mem hne h.notKilled, h.noRow⟩
      · rw [hk]
        exact ⟨trivial, h.child, h.notKilled, h.noRow⟩

/-- The number of a collected child is in a row that is still to come, or a
process that is no child was killed. -/
structure Stray (childpid : ℤ) (s : State) : Prop where
  point : s.point.Handler
  gone : ∀ c ∈ s.children, c.pid ≠ childpid
  ahead : s.strays ≠ [] ∨ ∃ sig j k row, s.point = .cleaning sig j ∧ j ≤ k ∧
    s.daemon.config[k]? = some row ∧ row.conpid = childpid

theorem Stray.handled {childpid : ℤ} (hpos : 0 < childpid) (h : Stray childpid s)
    (hs : Handled s s') : Stray childpid s' := by
  cases hs with
  | exits p =>
      exact ⟨h.point, forall_exitChild (P := fun q _ => q ≠ childpid) h.gone p, h.ahead⟩
  | again sig =>
      refine ⟨trivial, h.gone, h.ahead.imp_right ?_⟩
      rintro ⟨_, _, k, row, -, -, hrow, hpid⟩
      exact ⟨sig, 0, k, row, rfl, Nat.zero_le k, hrow, hpid⟩
  | finished sig j hpoint hend =>
      refine ⟨trivial, h.gone, .inl (h.ahead.resolve_right ?_)⟩
      rintro ⟨_, j', k, row, hpoint', hjk, hrow, -⟩
      obtain ⟨rfl, rfl⟩ := Point.cleaning.inj (hpoint.symm.trans hpoint')
      have hk : k < s.daemon.config.length := (List.getElem?_eq_some_iff.mp hrow).1
      have hlen : s.daemon.config.length ≤ j := List.getElem?_eq_none_iff.mp hend
      omega
  | spared sig j row hpoint hrow hfree =>
      refine ⟨trivial, h.gone, h.ahead.imp_right ?_⟩
      rintro ⟨_, j', k, row', hpoint', hjk, hrow', hpid⟩
      obtain ⟨rfl, rfl⟩ := Point.cleaning.inj (hpoint.symm.trans hpoint')
      refine ⟨sig, j + 1, k, row', rfl, ?_, hrow', hpid⟩
      rcases Nat.lt_or_eq_of_le hjk with hjk | rfl
      · exact hjk
      · obtain rfl : row = row' := Option.some.inj (hrow.symm.trans hrow')
        rw [hfree, badPid] at hpid
        omega
  | exited sig hpoint =>
      refine ⟨trivial, h.gone, .inl (h.ahead.resolve_right ?_)⟩
      rintro ⟨_, j', k, row, hpoint', -⟩
      exact absurd (hpoint.symm.trans hpoint') (by simp)
  | killed sig j row hpoint hrow hheld =>
      rcases kill_cases { s with point := .cleaning sig (j + 1) } row.conpid with
        ⟨⟨c, hc, hpid⟩, hk⟩ | ⟨-, hk⟩
      · rw [hk]
        refine ⟨trivial, h.gone, h.ahead.imp_right ?_⟩
        rintro ⟨_, j', k, row', hpoint', hjk, hrow', hpid'⟩
        obtain ⟨rfl, rfl⟩ := Point.cleaning.inj (hpoint.symm.trans hpoint')
        refine ⟨sig, j + 1, k, row', rfl, ?_, hrow', hpid'⟩
        rcases Nat.lt_or_eq_of_le hjk with hjk | rfl
        · exact hjk
        · obtain rfl : row = row' := Option.some.inj (hrow.symm.trans hrow')
          exact absurd (hpid.trans hpid') (h.gone c hc)
      · rw [hk]
        exact ⟨trivial, h.gone, .inl (by simp)⟩

/-- What a handler's steps keep holds until the next image. -/
theorem handler_run {J : State → Prop} (hpoint : ∀ s, J s → s.point.Handler)
    (hstep : ∀ s s', J s → Handled s s' → J s') {labels : List (Event × List Effect)}
    (hr : Run (Step hostsCtl) s labels s') (hexec : ∀ l ∈ labels, ∀ d, l.1 ≠ .exec d) (h : J s) :
    J s' :=
  hr.invariant_of_labels (I := fun _ => True) (P := fun l => ∀ d, l.1 ≠ .exec d)
    (fun _ _ _ _ _ => trivial)
    (fun s _ s' _ h hl hs => hstep s s' h (hs.handled (hpoint s h) hl)) hexec trivial h

/-- A signal that comes while the table is behind does harm. -/
theorem incomplete_of_exposed (h : Sound s) (hexposed : Exposed s) {sig sig' : Signal}
    {labels : List (Event × List Effect)}
    (hr : Run (Step hostsCtl) { s with point := .cleaning sig 0 } labels s')
    (hexec : ∀ l ∈ labels, ∀ d, l.1 ≠ .exec d) (hcleaned : s'.point = .cleaned sig') :
    ¬Complete s' := by
  have hat := h.point
  unfold AtPoint at hat
  unfold Exposed at hexposed
  split at hexposed
  · next req i pid hpoint =>
      simp only [hpoint] at hat
      obtain ⟨hpos, hkilled, row, hrow, hfree⟩ := hat
      have hheld : pid ≠ badPid := by
        rw [badPid]
        omega
      have hsettled : settled s =
        s.daemon.config.modify i fun row => lockMember req pid 0 row .conpid := by
        simp [settled, hpoint]
      -- the child is that of the row that is about to get its number
      have hlocked : (settled s)[i]? = some (lockMember req pid 0 row .conpid) := by
        rw [hsettled, List.getElem?_modify_eq, hrow]
        rfl
      have hmissed : Missed pid { s with point := .cleaning sig 0 } := by
        obtain ⟨c, hc, hcp, -⟩ := h.owned.rowChild i _ hlocked hheld
        refine ⟨trivial, ⟨c, hc, hcp⟩, hkilled, fun j row' hrow' hpid => ?_⟩
        by_cases hij : i = j
        · subst hij
          obtain rfl : row = row' := Option.some.inj (hrow.symm.trans hrow')
          exact hheld (hpid.symm.trans hfree)
        · have hother : (settled s)[j]? = some row' := by
            rw [hsettled, List.getElem?_modify_ne _ _ hij]
            exact hrow'
          exact hij (h.owned.oneToOne.distinct i j _ row' hlocked hother hheld hpid.symm)
      intro hcomplete
      have hend := handler_run (fun _ h => h.point) (fun _ _ h hs => h.handled hs) hr hexec hmissed
      obtain ⟨c, hc, rfl⟩ := hend.child
      exact hend.notKilled (hcomplete.1 c hc)
  · next pending childpid j next hpoint =>
      simp only [hpoint] at hat
      obtain ⟨hpos, hgone, -, -⟩ := hat
      obtain ⟨row, hrow, hpid⟩ := hexposed
      obtain ⟨k, hk⟩ := List.getElem?_of_mem hrow
      have hstray : Stray childpid { s with point := .cleaning sig 0 } :=
        ⟨trivial, hgone, .inr ⟨sig, 0, k, row, rfl, Nat.zero_le k, hk, hpid⟩⟩
      intro hcomplete
      have hend := handler_run (fun _ h => h.point)
        (fun _ _ h hs => h.handled hpos hs) hr hexec hstray
      rcases hend.ahead with hstrays | ⟨_, _, _, _, hpoint', -⟩
      · exact hstrays hcomplete.2
      · exact absurd (hcleaned.symm.trans hpoint') (by simp)
  · exact absurd hexposed id

/-- A handler is not disturbed by further signals. -/
theorem Sound.handled (h : Sound s) (hin : s.point.Handler) (hs : Handled s s') :
    Sound s' ∧ s'.point.Handler := by
  cases hs with
  | exits pid => exact ⟨h.exits pid, hin⟩
  | again sig =>
      refine ⟨h.signalled (fun hexposed => ?_) sig, trivial⟩
      unfold Exposed at hexposed
      split at hexposed <;> simp_all [Point.Handler]
  | finished sig j hpoint hend => exact ⟨h.finished hpoint hend, trivial⟩
  | killed sig j row hpoint hrow hheld =>
      refine ⟨h.killed hpoint hrow hheld, ?_⟩
      rcases kill_cases { s with point := .cleaning sig (j + 1) } row.conpid with ⟨-, hk⟩ | ⟨-, hk⟩
      · rw [hk]
        trivial
      · rw [hk]
        trivial
  | spared sig j row hpoint hrow hfree => exact ⟨h.spared hpoint hrow hfree, trivial⟩
  | exited sig hpoint => exact ⟨h.exited hpoint, trivial⟩

/-- **Shutdown.** In a run whose signals all come while the table is up to date,
`CleanUp` leaves no uncollected child without `SIGKILL` and sends it to nothing
else. After such a run one more signal does so if and only if the table is up to
date when it comes. -/
theorem shutdown_complete (hostsCtl : Addr → List Byte → Bool) {s₀ s : State}
    {labels : List (Event × List Effect)} (hinit : Init s₀)
    (hr : Run (fun s l s' => Step hostsCtl s l s' ∧ Timely s l) s₀ labels s) :
    (∀ sig, s.point = .cleaned sig → Complete s) ∧
    ∀ sig fx s₁ labels' s₂ sig', Step hostsCtl s (.signal sig, fx) s₁ →
      Run (Step hostsCtl) s₁ labels' s₂ → (∀ l ∈ labels', ∀ d, l.1 ≠ .exec d) →
      s₂.point = .cleaned sig' → (Complete s₂ ↔ ¬Exposed s) := by
  have hsound : Sound s := (Sound.of_init hinit).run hr
  refine ⟨fun sig hpoint => hsound.complete hpoint, ?_⟩
  intro sig fx s₁ labels' s₂ sig' hs hr' hexec hcleaned
  obtain rfl : s₁ = { s with point := .cleaning sig 0 } := by
    cases hs.cases with
    | moved _ _ _ _ _ he => exact absurd rfl (he sig)
    | signalled => rfl
  constructor
  · intro hcomplete hexposed
    exact incomplete_of_exposed hsound hexposed hr' hexec hcleaned hcomplete
  · intro hexposed
    have hend := handler_run (J := fun s => Sound s ∧ s.point.Handler) (fun _ h => h.2)
      (fun _ _ h hs => h.1.handled h.2 hs) hr' hexec ⟨hsound.signalled hexposed sig, trivial⟩
    exact hend.1.complete hcleaned

end Daemon

/-! ### Three shutdowns -/

def sampleState : State := ⟨sampleMachine.daemon, [], .main .waiting, [], []⟩

theorem sampleState_init : Init sampleState := ⟨sampleMachine_init.free, rfl, rfl, rfl, rfl⟩

/-- The state after a list of events. -/
def after (s : State) (es : List Event) : Option State :=
  runFn (fun s e => (step noWrappers s e).map Prod.fst) s es

theorem run_of_after {s s' : State} {es : List Event} (h : after s es = some s') :
    ∃ labels, Run (Step noWrappers) s labels s' ∧ labels.map Prod.fst = es := Run.of_runFn_fst h

def sampleAsked : List Event :=
  [.datagram sampleAddr (sampleRequest reqMakeConnection "ann" "argo").bytes, .noneDead]

/-- `CleanUp` in a daemon with two rows. -/
def sampleCleanUp : List Event := [.cleanUp, .cleanUp, .cleanUp]

theorem sampleMade_some : (after sampleState
    (sampleAsked ++ [.fork 7, .lock 100, .lock 100, .lock 100])).isSome = true := by decide

/-- Ann has got her row. -/
def sampleMade : State := (after sampleState
  (sampleAsked ++ [.fork 7, .lock 100, .lock 100, .lock 100])).get sampleMade_some

/-- An interrupt that comes then kills ann's child. -/
theorem shutdown_complete_made : ∃ s, after sampleMade (.signal .sigint :: sampleCleanUp) = some s ∧
    s.children = [⟨7, some 0, false⟩] ∧ Complete s := by
  obtain ⟨labels, hr, hes⟩ := run_of_after (Option.some_get sampleMade_some).symm
  have hquiet : ∀ l ∈ labels, ∀ sig, l.1 ≠ .signal sig := by
    intro l hl
    have hmem : l.1 ∈ sampleAsked ++ [.fork 7, .lock 100, .lock 100, .lock 100] :=
      hes ▸ List.mem_map_of_mem hl
    simp only [sampleAsked, List.cons_append, List.nil_append, List.mem_cons, List.not_mem_nil,
      or_false] at hmem
    rcases hmem with h | h | h | h | h | h <;> simp [h]
  have htimely : Run (fun s l s' => Step noWrappers s l s' ∧ Timely s l) sampleState labels
    sampleMade :=
    hr.imp_of_labels (P := fun l => ∀ sig, l.1 ≠ .signal sig)
      (fun _ _ _ hl hs => ⟨hs, fun sig h => absurd h (hl sig)⟩) hquiet
  have hsome : (after sampleMade (.signal .sigint :: sampleCleanUp)).isSome = true := by decide
  obtain ⟨labels', hr', hes'⟩ := run_of_after (Option.some_get hsome).symm
  refine ⟨_, (Option.some_get hsome).symm, rfl, ?_⟩
  cases hr' with
  | cons hs hr' =>
      rename_i l is
      obtain ⟨e, fx⟩ := l
      obtain ⟨rfl, hrest⟩ := List.cons.inj hes'
      refine ((shutdown_complete noWrappers sampleState_init htimely).2 _ _ _ _ _ .sigint hs hr' ?_
        rfl).mpr id
      intro l hl d h
      have hmem : l.1 ∈ sampleCleanUp := hrest ▸ List.mem_map_of_mem hl
      simp [sampleCleanUp, h] at hmem

/-- An interrupt between the return of `fork` and the assignment of `conpid`
leaves the child alive; a hangup between the return of `wait3` and the
assignments to the row kills a process that is no child. -/
theorem shutdown_incomplete :
    (∃ s, after sampleState (sampleAsked ++ .fork 7 :: .signal .sigint :: sampleCleanUp) = some s ∧
      s.point = .cleaned .sigint ∧ s.children = [⟨7, some 0, false⟩] ∧ s.killed = [] ∧
      ¬Complete s) ∧
    ∃ s, after sampleMade (.exits 7 :: .timeout :: .wait3 7 :: .signal .sighup :: sampleCleanUp) =
      some s ∧ s.point = .cleaned .sighup ∧ s.children = [] ∧ s.strays = [7] ∧ ¬Complete s := by
  have hearly : (after sampleState
      (sampleAsked ++ .fork 7 :: .signal .sigint :: sampleCleanUp)).isSome = true := by decide
  have hlate : (after sampleMade
      (.exits 7 :: .timeout :: .wait3 7 :: .signal .sighup :: sampleCleanUp)).isSome = true := by
    decide
  refine ⟨⟨_, (Option.some_get hearly).symm, rfl, rfl, rfl, fun hcomplete => ?_⟩,
    ⟨_, (Option.some_get hlate).symm, rfl, rfl, rfl, fun hcomplete => ?_⟩⟩
  · have hkilled : (7 : ℤ) ∈ [] := hcomplete.1 ⟨7, some 0, false⟩ List.mem_cons_self
    exact absurd hkilled (by simp)
  · have hstrays : ([7] : List ℤ) = [] := hcomplete.2
    exact absurd hstrays (by simp)

end XinuConsole.Consoled.Shutdown
