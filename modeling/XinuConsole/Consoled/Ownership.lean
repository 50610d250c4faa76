import XinuConsole.Consoled.Machine

/-!
Who owns a row: the table of connections and the children the daemon forked
for them, along every run of the daemon.
-/

namespace XinuConsole.Consoled

open Lib ConnectUtils

/-- The held rows and the connection children correspond one to one. -/
structure OneToOne (config : List Condata) (children : List Child) : Prop where
  held : ∀ i row, config[i]? = some row → row.conpid ≠ badPid →
    ∃ c ∈ children, c.row = some i ∧ c.pid = row.conpid ∧
      ∀ c' ∈ children, c'.row = some i ∨ c'.pid = row.conpid → c' = c
  forked : ∀ c ∈ children, ∀ i, c.row = some i →
    ∃ row, config[i]? = some row ∧ row.conpid = c.pid ∧ row.conpid ≠ badPid
  distinct : ∀ (i j : ℕ) (row row' : Condata), config[i]? = some row → config[j]? = some row' →
    row.conpid ≠ badPid → row.conpid = row'.conpid → i = j

/-- The invariant of the daemon's runs. -/
structure Owned (m : Machine) : Prop where
  rowChild : ∀ i row, m.config[i]? = some row → row.conpid ≠ badPid →
    ∃ c ∈ m.children, c.pid = row.conpid ∧ c.row = some i
  childRow : ∀ c ∈ m.children, ∀ i, c.row = some i →
    ∃ row, m.config[i]? = some row ∧ row.conpid = c.pid
  nodup : (m.children.map Child.pid).Nodup
  positive : ∀ c ∈ m.children, 0 < c.pid

theorem exitChild_pid (pid : ℤ) (c : Child) : (exitChild pid c).pid = c.pid := by
  unfold exitChild
  split <;> rfl

theorem exitChild_row (pid : ℤ) (c : Child) : (exitChild pid c).row = c.row := by
  unfold exitChild
  split <;> rfl

namespace Owned

variable {m : Machine}

theorem of_init (h : Init m) : Owned m where
  rowChild i row hrow hheld := absurd (h.free row (List.mem_of_getElem? hrow)).1 hheld
  childRow c hc i hi := by simp [(h.inherited c hc).1] at hi
  nodup := h.nodup
  positive c hc := (h.inherited c hc).2

theorem child_unique (h : Owned m) {c c' : Child} (hc : c ∈ m.children) (hc' : c' ∈ m.children)
    (hpid : c.pid = c'.pid) : c = c' :=
  List.inj_on_of_nodup_map h.nodup hc hc' hpid

theorem row_held (h : Owned m) {c : Child} (hc : c ∈ m.children) : c.pid ≠ badPid := by
  have := h.positive c hc
  rw [badPid]
  omega

/-- Two children forked for one row are the same child. -/
theorem row_unique (h : Owned m) {c c' : Child} {i : ℕ} (hc : c ∈ m.children)
    (hc' : c' ∈ m.children) (hi : c.row = some i) (hi' : c'.row = some i) : c = c' := by
  obtain ⟨row, hrow, hpid⟩ := h.childRow c hc i hi
  obtain ⟨row', hrow', hpid'⟩ := h.childRow c' hc' i hi'
  obtain rfl : row = row' := by rw [hrow] at hrow'; exact Option.some.inj hrow'
  exact h.child_unique hc hc' (hpid.symm.trans hpid')

theorem oneToOne (h : Owned m) : OneToOne m.config m.children where
  held i row hrow hheld := by
    obtain ⟨c, hc, hpid, hi⟩ := h.rowChild i row hrow hheld
    refine ⟨c, hc, hi, hpid, fun c' hc' hor => ?_⟩
    rcases hor with hi' | hpid'
    · exact h.row_unique hc' hc hi' hi
    · exact h.child_unique hc' hc (hpid'.trans hpid.symm)
  forked c hc i hi := by
    obtain ⟨row, hrow, hpid⟩ := h.childRow c hc i hi
    exact ⟨row, hrow, hpid, hpid ▸ h.row_held hc⟩
  distinct i j row row' hi hj hheld hpid := by
    obtain ⟨c, hc, hcp, hci⟩ := h.rowChild i row hi hheld
    obtain ⟨c', hc', hcp', hcj⟩ := h.rowChild j row' hj (hpid ▸ hheld)
    obtain rfl := h.child_unique hc hc' (by rw [hcp, hcp', hpid])
    rw [hci] at hcj
    exact Option.some.inj hcj

/-- Names and times may change: only `conpid` matters to ownership. -/
theorem of_conpid {d' : Daemon} {phase : Phase} (h : Owned m)
    (hconfig : d'.config.map Condata.conpid = m.config.map Condata.conpid) :
    Owned { daemon := d', children := m.children, phase := phase } := by
  -- row by row, the two tables have the same pids
  have key : ∀ i : ℕ, (d'.config[i]?).map Condata.conpid = (m.config[i]?).map Condata.conpid := by
    intro i
    rw [← List.getElem?_map, ← List.getElem?_map, hconfig]
  refine ⟨fun i row hrow hheld => ?_, fun c hc i hi => ?_, h.nodup, h.positive⟩
  · have hrow : d'.config[i]? = some row := hrow
    have hi := key i
    rw [hrow, Option.map_some, eq_comm, Option.map_eq_some_iff] at hi
    obtain ⟨row', hrow', hpid⟩ := hi
    rw [← hpid] at hheld ⊢
    exact h.rowChild i row' hrow' hheld
  · obtain ⟨row, hrow, hpid⟩ := h.childRow c hc i hi
    have hi := key i
    rw [hrow, Option.map_some, Option.map_eq_some_iff] at hi
    obtain ⟨row', hrow', hpid'⟩ := hi
    exact ⟨row', hrow', hpid'.trans hpid⟩

theorem exits (h : Owned m) (pid : ℤ) :
    Owned { m with children := m.children.map (exitChild pid) } := by
  refine ⟨fun i row hi hheld => ?_, fun c hc i hi => ?_, ?_, fun c hc => ?_⟩
  · obtain ⟨c, hc, hcp, hci⟩ := h.rowChild i row hi hheld
    exact ⟨_, List.mem_map_of_mem hc, (exitChild_pid pid c).trans hcp,
      (exitChild_row pid c).trans hci⟩
  · obtain ⟨c, hc', rfl⟩ := List.mem_map.mp hc
    rw [exitChild_pid]
    exact h.childRow c hc' i (exitChild_row pid c ▸ hi)
  · have : (m.children.map (exitChild pid)).map Child.pid = m.children.map Child.pid := by
      rw [List.map_map]
      exact List.map_congr_left fun c _ => exitChild_pid pid c
    rw [this]
    exact h.nodup
  · obtain ⟨c, hc', rfl⟩ := List.mem_map.mp hc
    rw [exitChild_pid]
    exact h.positive c hc'

theorem freeRow_of_ne {childpid : ℤ} {row : Condata} (h : row.conpid ≠ childpid) :
    freeRow childpid row = row := if_neg h

/-- A collected child leaves its row. -/
theorem wait3 (h : Owned m) (childpid : ℤ) :
    Owned { m with
      daemon := collectChild m.daemon childpid
      children := m.children.filter fun c => c.pid ≠ childpid } := by
  refine ⟨fun i row hi hheld => ?_, fun c hc i hi => ?_, ?_, fun c hc => ?_⟩
  · obtain ⟨row', hrow', rfl⟩ : ∃ row', m.config[i]? = some row' ∧ freeRow childpid row' = row := by
      simpa [Machine.config, collectChild] using hi
    by_cases hpid : row'.conpid = childpid
    · exact absurd (by simp [freeRow, hpid]) hheld
    · rw [freeRow_of_ne hpid] at hheld ⊢
      obtain ⟨c, hc, hcp, hci⟩ := h.rowChild i row' hrow' hheld
      exact ⟨c, List.mem_filter.mpr ⟨hc, by simpa [hcp] using hpid⟩, hcp, hci⟩
  · obtain ⟨hc, hne⟩ := List.mem_filter.mp hc
    obtain ⟨row, hrow, hpid⟩ := h.childRow c hc i hi
    refine ⟨row, ?_, hpid⟩
    have hne' : row.conpid ≠ childpid := by rw [hpid]; simpa using hne
    have hrow : m.daemon.config[i]? = some row := hrow
    simp [Machine.config, collectChild, hrow, freeRow_of_ne hne']
  · exact h.nodup.sublist (List.filter_sublist.map Child.pid)
  · exact h.positive c (List.mem_filter.mp hc).1

/-- A granted connection gives a free row to a new child. -/
theorem made (h : Owned m) {d' : Daemon} {fx : List Effect} {i : ℕ} {row : Condata}
    {pid now : ℤ} {user : List Byte} (hrow : m.config[i]? = some row)
    (hfree : row.conpid = badPid) (hpid : 0 ≤ pid) (hfork : ForkAnswer m.children pid)
    (hconfig : d'.config = m.config.modify i (lockRow pid now user))
    (hfx : fx.filterMap Effect.forked = [(pid, i)]) :
    Owned { daemon := d', children := m.children ++ newChildren fx, phase := .waiting } := by
  obtain ⟨hpos, hnew⟩ : 0 < pid ∧ ∀ c ∈ m.children, c.pid ≠ pid := by
    rcases hfork with h | h
    · omega
    · exact h
  have hchildren : newChildren fx = [⟨pid, some i, false⟩] := by simp [newChildren, hfx]
  rw [hchildren]
  refine ⟨fun j row' hj hheld => ?_, fun c hc j hj => ?_, ?_, fun c hc => ?_⟩
  · have hj : (m.config.modify i (lockRow pid now user))[j]? = some row' := hconfig ▸ hj
    -- the made row belongs to the new child, the others to their old ones
    by_cases hij : i = j
    · subst hij
      rw [List.getElem?_modify_eq, hrow] at hj
      obtain rfl := Option.some.inj hj
      exact ⟨⟨pid, some i, false⟩, by simp, rfl, rfl⟩
    · rw [List.getElem?_modify_ne _ _ hij] at hj
      obtain ⟨c, hc, hcp, hcj⟩ := h.rowChild j row' hj hheld
      exact ⟨c, List.mem_append_left _ hc, hcp, hcj⟩
  · show ∃ row', d'.config[j]? = some row' ∧ row'.conpid = c.pid
    rw [hconfig]
    rcases List.mem_append.mp hc with hc | hc
    · obtain ⟨row', hrow', hpid'⟩ := h.childRow c hc j hj
      have hij : i ≠ j := by
        rintro rfl
        rw [hrow] at hrow'
        obtain rfl := Option.some.inj hrow'
        exact h.row_held hc (hpid'.symm.trans hfree)
      rw [List.getElem?_modify_ne _ _ hij]
      exact ⟨row', hrow', hpid'⟩
    · obtain rfl := List.mem_singleton.mp hc
      obtain rfl : i = j := Option.some.inj hj
      rw [List.getElem?_modify_eq, hrow]
      exact ⟨_, rfl, rfl⟩
  · rw [List.map_append, List.nodup_append]
    refine ⟨h.nodup, by simp, fun a ha b hb => ?_⟩
    obtain ⟨c, hc, rfl⟩ := List.mem_map.mp ha
    obtain rfl : b = pid := by simpa using hb
    exact hnew c hc
  · rcases List.mem_append.mp hc with hc | hc
    · exact h.positive c hc
    · obtain rfl := List.mem_singleton.mp hc
      exact hpos

/-- One case per kind of step. -/
theorem step {hostsCtl : Addr → List Byte → Bool} {l : Event × List Effect} {m' : Machine}
    (h : Owned m) (hs : Step hostsCtl m l m') : Owned m' := by
  cases hs.cases with
  | exits pid => exact h.exits pid
  | received e fx pending => exact h.of_conpid rfl
  | wait3 childpid fx pending => exact h.wait3 childpid
  | noneDead pending => exact h.of_conpid rfl
  | serve junk pid now psa req r hphase hpid hr hserved =>
      cases hserved with
      | same hconfig hfork =>
          simp only [newChildren, hfork, List.map_nil, List.append_nil]
          exact h.of_conpid (congrArg _ hconfig)
      | touched i row hadm hcode haddr hheld huser hconfig hfork =>
          simp only [newChildren, hfork, List.map_nil, List.append_nil]
          apply h.of_conpid
          rw [hconfig]
          exact map_modify (touchRow_conpid now req.user.val) _ i
      | made i row hadm hcode haddr hfree hnonneg hconfig hfork =>
          exact h.made haddr.2 hfree hnonneg hpid hconfig hfork

theorem reachable {hostsCtl : Addr → List Byte → Bool}
    (h : Reachable (Step hostsCtl) Init m) : Owned m :=
  h.invariant (fun _ => of_init) fun _ _ _ => step

end Owned

/-! ### Sweeps and kills -/

/-- A child that was dead in a sweep is collected, with its row free, before
the next request is served. -/
theorem freed_of_run {hostsCtl : Addr → List Byte → Bool} {m m' : Machine}
    {labels : List (Event × List Effect)} (hown : Owned m) (hr : Run (Step hostsCtl) m labels m')
    {pending : Option (Addr × Request)} (hphase : m.phase = .sweeping pending)
    (hserve : ∀ l ∈ labels, ∀ junk pid now, l.1 ≠ .serve junk pid now) {psa : Addr} {req : Request}
    (hphase' : m'.phase = .serving psa req) {c : Child} (hc : c ∈ m.children)
    (hdead : c.dead = true) {i : ℕ} (hi : c.row = some i) :
    ∃ row, m'.config[i]? = some row ∧ row.conpid = badPid := by
  have hinv := hr.invariant_of_labels (I := Owned)
    (J := fun m => (c ∈ m.children ∧ ∃ pending, m.phase = .sweeping pending) ∨
      ∃ row, m.config[i]? = some row ∧ row.conpid = badPid)
    (P := fun l => ∀ junk pid now, l.1 ≠ .serve junk pid now)
    (fun _ _ _ => Owned.step) ?_ hserve hown (.inl ⟨hc, pending, hphase⟩)
  · rcases hinv with ⟨-, pending', hp⟩ | hfree
    · rw [hphase'] at hp
      exact absurd hp (by simp)
    · exact hfree
  -- until it is collected the child keeps the daemon in the sweep; then its row is free,
  -- and no request is served that could take it again
  intro t l t' ht hJ hl hs
  cases hs.cases with
  | exits pid =>
      refine hJ.imp (fun ⟨hct, hp⟩ => ⟨List.mem_map.mpr ⟨c, hct, ?_⟩, hp⟩) id
      obtain ⟨_, _, _⟩ := c
      obtain rfl : _ = true := hdead
      simp [exitChild]
  | received e fx pending hp =>
      refine hJ.imp (fun ⟨hct, pending', hp'⟩ => ?_) id
      rw [hp] at hp'
      exact absurd hp' (by simp)
  | wait3 childpid fx pending =>
      have hfreed : ∀ row, t.config[i]? = some row → row.conpid = badPid ∨ row.conpid = childpid →
          ∃ row', (collectChild t.daemon childpid).config[i]? = some row' ∧
            row'.conpid = badPid := by
        intro row hrow hor
        have hrow : t.daemon.config[i]? = some row := hrow
        refine ⟨freeRow childpid row, by simp [collectChild, hrow], ?_⟩
        unfold freeRow
        split
        · rfl
        · exact hor.resolve_right ‹_›
      rcases hJ with ⟨hct, hp⟩ | ⟨row, hrow, hfree⟩
      · by_cases hpid : c.pid = childpid
        · obtain ⟨row, hrow, hrp⟩ := ht.childRow c hct i hi
          exact .inr (hfreed row hrow (.inr (hrp.trans hpid)))
        · exact .inl ⟨List.mem_filter.mpr ⟨hct, by simpa using hpid⟩, hp⟩
      · exact .inr (hfreed row hrow (.inl hfree))
  | noneDead pending hp halive =>
      refine hJ.imp (fun ⟨hct, _⟩ => ?_) id
      exact absurd hdead (by simp [halive c hct])
  | serve junk pid now => exact absurd rfl (hl junk pid now)

/-- A kill goes to the child of the row that the request addresses. -/
theorem kill_owned {hostsCtl : Addr → List Byte → Bool} {m m' : Machine} {e : Event}
    {fx : List Effect} (hown : Owned m) (hs : Step hostsCtl m (e, fx) m') {p : ℤ}
    (hp : Effect.kill p ∈ fx) :
    0 < p ∧ ∃ psa req i row, m.phase = .serving psa req ∧ req.code = reqBreakConnection ∧
      Addresses m.daemon req i row ∧ row.conpid = p ∧
      ∃ c ∈ m.children, c.pid = p ∧ c.row = some i := by
  cases hs.cases with
  | exits pid => exact absurd hp (by simp)
  | received _ _ pending hphase hkill => exact absurd hp (hkill p)
  | wait3 childpid _ pending hphase hkill => exact absurd hp (hkill p)
  | noneDead => exact absurd hp (by simp)
  | serve junk pid now psa req r hphase hpid hr hserved =>
      cases hserved with
      | same hconfig hfork hkill =>
          obtain ⟨-, hcode, i, row, haddr, hheld, rfl⟩ := hkill p hp
          obtain ⟨c, hc, hcp, hci⟩ := hown.rowChild i row haddr.2 hheld
          exact ⟨hcp ▸ hown.positive c hc, psa, req, i, row, hphase, hcode, haddr, rfl, c, hc, hcp,
            hci⟩
      | touched i row hadm hcode haddr hheld huser hconfig hfork hkill => exact absurd hp (hkill p)
      | made i row hadm hcode haddr hfree hnonneg hconfig hfork hkill => exact absurd hp (hkill p)

/-- **The lock table.** Whenever a request is about to be served, the held
rows and the uncollected connection children correspond one to one; a child
that was dead during the sweep before has its row free; and what the request
makes the daemon kill is the child forked for the row it addresses. -/
theorem lockTable_ownership (hostsCtl : Addr → List Byte → Bool) {m : Machine} {psa : Addr}
    {req : Request} (h : Reachable (Step hostsCtl) Init m) (hphase : m.phase = .serving psa req) :
    OneToOne m.config m.children ∧
    (∀ m₀ pending labels, Reachable (Step hostsCtl) Init m₀ → m₀.phase = .sweeping pending →
      Run (Step hostsCtl) m₀ labels m →
      (∀ l ∈ labels, ∀ junk pid now, l.1 ≠ .serve junk pid now) →
      ∀ c ∈ m₀.children, c.dead = true → ∀ i, c.row = some i →
        ∃ row, m.config[i]? = some row ∧ row.conpid = badPid) ∧
    (∀ e fx m', Step hostsCtl m (e, fx) m' → ∀ p, Effect.kill p ∈ fx →
      0 < p ∧ ∃ i row, Addresses m.daemon req i row ∧ row.conpid = p ∧
        ∃ c ∈ m.children, c.pid = p ∧ c.row = some i) := by
  have hown := Owned.reachable h
  refine ⟨hown.oneToOne, fun m₀ pending labels h₀ hp₀ hr hserve c hc hdead i hi => ?_,
    fun e fx m' hs p hp => ?_⟩
  · exact freed_of_run (Owned.reachable h₀) hr hp₀ hserve hphase hc hdead hi
  · obtain ⟨hpos, psa', req', i, row, hphase', -, haddr, hpid, hchild⟩ := kill_owned hown hs hp
    rw [hphase] at hphase'
    obtain ⟨rfl, rfl⟩ := Phase.serving.inj hphase'
    exact ⟨hpos, i, row, haddr, hpid, hchild⟩

/-- A row is made for the child 7 and another request is about to be served. -/
theorem lockTable_ownership_made :
    let es := sampleRound (sampleRequest reqMakeConnection "ann" "argo") 7 100 ++
      [.datagram sampleAddr (sampleRequest reqBreakConnection "bob" "argo").bytes, .noneDead]
    ∃ m, after noWrappers sampleMachine es = some m ∧ m.children = [⟨7, some 0, false⟩] ∧
      OneToOne m.config m.children := by
  intro es
  have h : (after noWrappers sampleMachine es).isSome = true := by decide
  have hphase : ((after noWrappers sampleMachine es).get h).phase =
      .serving sampleAddr (sampleRequest reqBreakConnection "bob" "argo") := rfl
  exact ⟨_, (Option.some_get h).symm, rfl,
    (lockTable_ownership noWrappers (sampleMachine_reachable es h) hphase).1⟩

end XinuConsole.Consoled
