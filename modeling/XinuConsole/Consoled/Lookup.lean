import XinuConsole.Config.Layout
import XinuConsole.Consoled.Session

/-!
The table of the configuration file under the daemon's requests: which row a
request leads to, and which rows a status reply lists.

A request leads to the first row with its names. Two rows of the file may have
the same names, and then nothing leads to the second.
-/

namespace XinuConsole.Consoled

open Lib ConnectUtils

/-- A daemon that has just read its configuration file. -/
structure Loaded (sys : Config.System) (file : Option (List Byte)) (m : Machine) : Prop where
  read : Config.readConfigurationFile sys file = .ok m.config
  inherited : ∀ c ∈ m.children, c.row = none ∧ 0 < c.pid
  nodup : (m.children.map Child.pid).Nodup
  phase : m.phase = .waiting

theorem Loaded.init {sys : Config.System} {file : Option (List Byte)} {m : Machine}
    (h : Loaded sys file m) : Init m where
  free row hrow :=
    have hfresh := (Config.readConfigurationFile_fresh h.read).1 row hrow
    ⟨hfresh.free, hfresh.unused⟩
  inherited := h.inherited
  nodup := h.nodup
  phase := h.phase

/-- The names of the rows. -/
def names (config : List Condata) : List (List Byte × List Byte) :=
  config.map fun row => (row.conname, row.conclass)

theorem freeRow_names (childpid : ℤ) (row : Condata) :
    ((freeRow childpid row).conname, (freeRow childpid row).conclass) =
      (row.conname, row.conclass) := by
  unfold freeRow
  split <;> rfl

theorem touchRow_names (now : ℤ) (user : List Byte) (row : Condata) :
    ((touchRow now user row).conname, (touchRow now user row).conclass) =
      (row.conname, row.conclass) := by
  unfold touchRow
  split <;> rfl

theorem lockRow_names (pid now : ℤ) (user : List Byte) (row : Condata) :
    ((lockRow pid now user row).conname, (lockRow pid now user row).conclass) =
      (row.conname, row.conclass) := rfl

section Names

variable {hostsCtl : Addr → List Byte → Bool} {m m' : Machine}

theorem Step.names {l : Event × List Effect} (hs : Step hostsCtl m l m') :
    names m'.config = names m.config := by
  cases hs.cases with
  | wait3 childpid =>
      show List.map _ (List.map _ _) = _
      rw [List.map_map]
      exact List.map_congr_left fun row _ => freeRow_names childpid row
  | serve junk pid now psa req r hphase hpid hr hserved =>
      cases hserved with
      | same hconfig => exact congrArg Consoled.names hconfig
      | touched i row hadm hcode haddr hheld huser hconfig =>
          exact (congrArg Consoled.names hconfig).trans
            (map_modify (touchRow_names now req.user.val) _ i)
      | made i row hadm hcode haddr hfree hnonneg hconfig =>
          exact (congrArg Consoled.names hconfig).trans
            (map_modify (lockRow_names pid now req.user.val) _ i)
  | exits | received | noneDead => rfl

/-- The names of the table stay as they were read. -/
theorem names_of_run {labels : List (Event × List Effect)} (hr : Run (Step hostsCtl) m labels m') :
    names m'.config = names m.config :=
  hr.invariant (I := fun t => names t.config = names m.config)
    (fun _ _ _ hI hs => hs.names.trans hI) rfl

theorem getElem?_of_names {config config' : List Condata} (h : names config' = names config) {i : ℕ}
    {row' : Condata} (hrow' : config'[i]? = some row') :
    ∃ row, config[i]? = some row ∧ row'.conname = row.conname ∧ row'.conclass = row.conclass := by
  have hi : (names config')[i]? = some (row'.conname, row'.conclass) := by
    simp [names, hrow']
  rw [h, names, List.getElem?_map, Option.map_eq_some_iff] at hi
  obtain ⟨row, hrow, hnames⟩ := hi
  obtain ⟨hname, hclass⟩ := Prod.mk.inj hnames
  exact ⟨row, hrow, hname.symm, hclass.symm⟩

/-- No row of a loaded table is without a name, and the table is not too long. -/
theorem Loaded.run {sys : Config.System} {file : Option (List Byte)} (h : Loaded sys file m)
    {labels : List (Event × List Effect)} (hr : Run (Step hostsCtl) m labels m') :
    (∀ row ∈ m'.config, row.conname ≠ []) ∧ m'.config.length ≤ maxConnections := by
  obtain ⟨hfresh, hle⟩ := Config.readConfigurationFile_fresh h.read
  have hnames := names_of_run hr
  constructor
  · intro row' hrow'
    obtain ⟨i, hi⟩ := List.mem_iff_getElem?.mp hrow'
    obtain ⟨row, hrow, hname, -⟩ := getElem?_of_names hnames hi
    exact hname ▸ (hfresh row (List.mem_of_getElem? hrow)).named
  · have hlen := congrArg List.length hnames
    simp only [names, List.length_map] at hlen
    exact hlen ▸ hle

end Names

/-! ### Rows with the same names -/

/-- The names of `row` lead to `row'` as well, if it comes first. -/
def SameNames (row row' : Condata) : Prop :=
  row'.conname = row.conname ∧ (row.conclass = [] ∨ row'.conclass = row.conclass)

/-- No row in front of the row number `i` has its names. -/
def Foremost (config : List Condata) (i : ℕ) (row : Condata) : Prop :=
  ∀ (j : ℕ) (row' : Condata), j < i → config[j]? = some row' → ¬SameNames row row'

theorem conMatches_own (row row' : Condata) :
    conMatches row.conname row.conclass row' = true ↔ SameNames row row' := by
  have hname : (cstr row.conname).take 16 = row.conname := by
    rw [cstr_of_not_mem row.conname_str.1]
    exact List.take_of_length_le row.conname_str.2.le
  have hclass : cstr row.conclass = row.conclass := cstr_of_not_mem row.conclass_str.1
  have hclass' : row.conclass.take 16 = row.conclass :=
    List.take_of_length_le row.conclass_str.2.le
  rw [conMatches_iff, headD_eq_zero_iff, hname, hclass, hclass']
  rfl

/-- The names of a row lead to the first row that has them. -/
theorem getcondata_own {config : List Condata} {i : ℕ} {row : Condata}
    (hrow : config[i]? = some row) :
    ∃ j row', getcondata config row.conname row.conclass = some j ∧ config[j]? = some row' ∧
      j ≤ i ∧ SameNames row row' ∧ Foremost config j row ∧ (j = i ↔ Foremost config i row) := by
  have hown : SameNames row row := ⟨rfl, .inr rfl⟩
  cases hget : getcondata config row.conname row.conclass with
  | none =>
      have hnone := List.findIdx?_eq_none_iff.mp hget row (List.mem_of_getElem? hrow)
      rw [(conMatches_own row row).mpr hown] at hnone
      exact absurd hnone (by simp)
  | some j =>
      obtain ⟨hj, hfound, hbefore⟩ := List.findIdx?_eq_some_iff_getElem.mp hget
      have hsame := (conMatches_own row _).mp hfound
      have hfirst : Foremost config j row := by
        intro k row' hk hrow' hsame'
        obtain ⟨hk', rfl⟩ := List.getElem?_eq_some_iff.mp hrow'
        exact hbefore k hk ((conMatches_own row _).mpr hsame')
      have hle : j ≤ i := by
        by_contra hlt
        exact hfirst i row (Nat.lt_of_not_le hlt) hrow hown
      refine ⟨j, config[j], rfl, List.getElem?_eq_getElem hj, hle, hsame, hfirst, ?_⟩
      constructor
      · rintro rfl
        exact hfirst
      · intro hi
        by_contra hne
        exact hi j _ (Nat.lt_of_le_of_ne hle hne) (List.getElem?_eq_getElem hj) hsame

/-- A client that asks with the names of a row asks for these names. -/
theorem getcondata_initRequest (config : List Condata) (stack : Request) (user : List Byte)
    (code : Byte) (row : Condata) :
    let req := initRequest stack user code (some row.conname) (some row.conclass)
    getcondata config req.conname.val req.conclass.val =
      getcondata config row.conname row.conclass := by
  intro req
  have hname : (cstr row.conname).take 15 = row.conname := by
    rw [cstr_of_not_mem row.conname_str.1]
    exact List.take_of_length_le (Nat.le_of_lt_succ row.conname_str.2)
  have hclass : (cstr row.conclass).take 15 = row.conclass := by
    rw [cstr_of_not_mem row.conclass_str.1]
    exact List.take_of_length_le (Nat.le_of_lt_succ row.conclass_str.2)
  unfold getcondata
  congr 1
  funext row'
  refine Bool.eq_iff_iff.mpr ((conMatches_initRequest stack user code _ _ row').trans ?_)
  rw [conMatches_own, Option.getD_some, Option.getD_some, hname, hclass]
  rfl

/-! ### Acting on a row -/

section Acting

variable {hostsCtl : Addr → List Byte → Bool}

/-- What serving a request does, it does to the row number `j`: a make request
takes it if it is free, a break request kills its child, and the other rows stay
as they are. -/
structure ActsOn (m : Machine) (req : Request) (j : ℕ) (row : Condata) (pid : ℤ)
    (fx : List Effect) (m' : Machine) : Prop where
  forks : ∀ p k, (p, k) ∈ fx.filterMap Effect.forked → k = j
  kills : ∀ p, Effect.kill p ∈ fx → p = row.conpid
  others : ∀ k, k ≠ j → m'.config[k]? = m.config[k]?
  makes : req.code = reqMakeConnection → row.conpid = badPid → 0 ≤ pid →
    fx.filterMap Effect.forked = [(pid, j)]
  breaks : req.code = reqBreakConnection → row.conpid ≠ badPid → Effect.kill row.conpid ∈ fx

/-- A request for a free row makes the daemon fork a child for its sender. -/
theorem fork_of_make {d : Daemon} {psa : Addr} {req : Request} {j : ℕ} {row : Condata}
    (hadm : Admitted hostsCtl psa req) (hcode : req.code = reqMakeConnection)
    (haddr : Addresses d req j row) (hfree : row.conpid = badPid) {pid : ℤ} (hpid : 0 ≤ pid)
    (junk : Reply) (now : ℤ) :
    Effect.fork pid j psa ∈ (processRequest hostsCtl junk pid now d psa req).2 := by
  simp [processRequest, hadm.1, hadm.2, hcode, haddr.1, haddr.2, hfree, makeConnection,
    Int.not_lt.mpr hpid]

theorem processRequest_make {d : Daemon} {psa : Addr} {req : Request} {j : ℕ} {row : Condata}
    (hadm : Admitted hostsCtl psa req) (hcode : req.code = reqMakeConnection)
    (haddr : Addresses d req j row) (hfree : row.conpid = badPid) {pid : ℤ} (hpid : 0 ≤ pid)
    (junk : Reply) (now : ℤ) :
    (processRequest hostsCtl junk pid now d psa req).2.filterMap Effect.forked = [(pid, j)] := by
  have hserved := processRequest_served hostsCtl junk pid now d psa req
  have hne := fork_of_make hadm hcode haddr hfree hpid junk now
  have hmem : (pid, j) ∈ (processRequest hostsCtl junk pid now d psa req).2.filterMap
    Effect.forked :=
    List.mem_filterMap.mpr ⟨_, hne, rfl⟩
  cases hserved with
  | same _ hfork => exact absurd hmem (by simp [hfork])
  | touched _ _ _ _ _ _ _ _ hfork => exact absurd hmem (by simp [hfork])
  | made i row' _ _ haddr' _ _ _ hfork =>
      rw [hfork] at hmem ⊢
      rw [List.mem_singleton.mp hmem]

theorem processRequest_break {d : Daemon} {psa : Addr} {req : Request} {j : ℕ} {row : Condata}
    (hadm : Admitted hostsCtl psa req) (hcode : req.code = reqBreakConnection)
    (haddr : Addresses d req j row) (hheld : row.conpid ≠ badPid) (junk : Reply) (pid now : ℤ) :
    Effect.kill row.conpid ∈ (processRequest hostsCtl junk pid now d psa req).2 := by
  simp [processRequest, hadm.1, hadm.2, hcode, haddr.1, haddr.2, hheld]

theorem Addresses.unique {d : Daemon} {req : Request} {i j : ℕ} {row row' : Condata}
    (h : Addresses d req i row) (h' : Addresses d req j row') : i = j ∧ row = row' := by
  obtain rfl : i = j := Option.some.inj (h.1.symm.trans h'.1)
  exact ⟨rfl, Option.some.inj (h.2.symm.trans h'.2)⟩

/-- A request acts on the row it addresses. -/
theorem actsOn_of_addresses {m m' : Machine} {psa : Addr} {req : Request} {j : ℕ} {row : Condata}
    (hphase : m.phase = .serving psa req) (hadm : Admitted hostsCtl psa req)
    (haddr : Addresses m.daemon req j row) {junk : Reply} {pid now : ℤ} {fx : List Effect}
    (hs : Step hostsCtl m (.serve junk pid now, fx) m') : ActsOn m req j row pid fx m' := by
  obtain ⟨-, r, hr, rfl, rfl, hserved⟩ := hs.served hphase
  have hmakes : req.code = reqMakeConnection → row.conpid = badPid → 0 ≤ pid →
      r.2.filterMap Effect.forked = [(pid, j)] := fun hcode hfree hpid =>
    hr ▸ processRequest_make hadm hcode haddr hfree hpid junk now
  have hbreaks : req.code = reqBreakConnection → row.conpid ≠ badPid →
      Effect.kill row.conpid ∈ r.2 := fun hcode hheld =>
    hr ▸ processRequest_break hadm hcode haddr hheld junk pid now
  cases hserved with
  | same hconfig hfork hkill =>
      refine ⟨by simp [hfork], fun p hp => ?_, fun k _ => congrArg (·[k]?) hconfig, hmakes, hbreaks⟩
      obtain ⟨-, -, i, row', haddr', -, rfl⟩ := hkill p hp
      rw [(haddr'.unique haddr).2]
  | touched i row' _ _ haddr' _ _ hconfig hfork hkill =>
      refine ⟨by simp [hfork], fun p hp => absurd hp (hkill p), fun k hk => ?_, hmakes, hbreaks⟩
      rw [(haddr'.unique haddr).1] at hconfig
      exact (congrArg (·[k]?) hconfig).trans (List.getElem?_modify_ne _ _ hk.symm)
  | made i row' _ _ haddr' _ _ hconfig hfork hkill =>
      obtain rfl := (haddr'.unique haddr).1
      refine ⟨fun p k hp => ?_, fun p hp => absurd hp (hkill p), fun k hk => ?_, hmakes, hbreaks⟩
      · rw [hfork, List.mem_singleton] at hp
        exact (Prod.mk.inj hp).2
      · exact (congrArg (·[k]?) hconfig).trans (List.getElem?_modify_ne _ _ hk.symm)

/-- The step from `m` to `m'` is the answer to a status request, and `record` is
what it says about the row number `i`. -/
def Lists (hostsCtl : Addr → List Byte → Bool) (m : Machine) (i : ℕ) (record : StatusreplyData)
    (m' : Machine) : Prop :=
  ∃ (psa : Addr) (req : Request) (junk : Reply) (pid now : ℤ) (fx : List Effect) (row : Condata),
    m.phase = .serving psa req ∧ Admitted hostsCtl psa req ∧ req.code = reqStatus ∧
      Step hostsCtl m (.serve junk pid now, fx) m' ∧ m.config[i]? = some row ∧
      statusMatches req row = true ∧ record = rowRecord now row

/-- The record is on the wire, among those of the rows in front of it and behind. -/
theorem Lists.sent {m m' : Machine} {i : ℕ} {record : StatusreplyData}
    (h : Lists hostsCtl m i record m') :
    ∃ (psa : Addr) (req : Request) (junk : Reply) (pid now : ℤ) (fx : List Effect)
      (header : List Byte) (before behind : List StatusreplyData),
      m.phase = .serving psa req ∧ Step hostsCtl m (.serve junk pid now, fx) m' ∧
        header.length = 70 ∧ before.length = (matching (m.config.take i) req).length ∧
        Effect.sendto psa (header ++ (before ++ record :: behind).flatMap encodeRecord) ∈ fx := by
  obtain ⟨psa, req, junk, pid, now, fx, row, hphase, hadm, hcode, hs, hrow, hmatch, rfl⟩ := h
  obtain ⟨-, r, hr, hfx, -, -⟩ := hs.served hphase
  subst hfx
  have hsent : Effect.sendto psa (sendtoReply
      (status junk m.daemon.hostname.val m.daemon.config req now).1
      (status junk m.daemon.hostname.val m.daemon.config req now).2) ∈ r.2 := by
    rw [hr]
    simp [processRequest, hadm.1, hadm.2, hcode]
  have hsplit : matching m.config req =
      matching (m.config.take i) req ++ row :: matching (m.config.drop (i + 1)) req := by
    obtain ⟨hi, rfl⟩ := List.getElem?_eq_some_iff.mp hrow
    have hlist : m.config = m.config.take i ++ m.config[i] :: m.config.drop (i + 1) := by
      rw [← List.drop_eq_getElem_cons hi, List.take_append_drop]
    have hfilter := congrArg (fun config => matching config req) hlist
    simpa only [matching, List.filter_append, List.filter_cons_of_pos hmatch] using hfilter
  have hconfig : matching m.daemon.config req = _ := hsplit
  rw [status_bytes, hconfig, List.map_append, List.map_cons] at hsent
  exact ⟨psa, req, junk, pid, now, r.2, _, _, _, hphase, hs, Reply.header_length _,
    List.length_map _, hsent⟩

/-- A free row stays free while no request is served. -/
theorem free_of_run {m m' : Machine} {labels : List (Event × List Effect)}
    (hr : Run (Step hostsCtl) m labels m')
    (hquiet : ∀ l ∈ labels, ∀ junk pid now, l.1 ≠ .serve junk pid now) {i : ℕ} {row : Condata}
    (hrow : m.config[i]? = some row) (hfree : row.conpid = badPid) :
    ∃ row', m'.config[i]? = some row' ∧ row'.conpid = badPid := by
  refine hr.invariant_of_labels (I := fun _ => True)
    (J := fun t => ∃ r : Condata, t.config[i]? = some r ∧ r.conpid = badPid)
    (P := fun l => ∀ junk pid now, l.1 ≠ .serve junk pid now) (fun _ _ _ _ _ => trivial)
    ?_ hquiet trivial ⟨row, hrow, hfree⟩
  rintro t l t' - ⟨r, hr, hfree⟩ hl hs
  obtain ⟨r', hr', hstep⟩ := hs.row hr
  cases hstep with
  | same => exact ⟨_, hr', hfree⟩
  | freed => exact ⟨_, hr', (freeRow_self _).1⟩
  | touched junk pid now => exact absurd rfl (hl junk pid now)
  | made junk pid now => exact absurd rfl (hl junk pid now)

end Acting

/-- **Every listed row can be addressed**, unless a row in front of it has its
names: the names of a row lead to the first row that has them. A make or break
request with the names of a listed row acts on that one, and makes the row that
was picked if it was listed as free and no request was served in between. -/
theorem listed_row_addressed (hostsCtl : Addr → List Byte → Bool) (m₀ : Machine) :
    (∀ (i : ℕ) (row : Condata), m₀.config[i]? = some row →
      ∃ j row', getcondata m₀.config row.conname row.conclass = some j ∧
        m₀.config[j]? = some row' ∧ j ≤ i ∧ SameNames row row' ∧ Foremost m₀.config j row ∧
        (j = i ↔ Foremost m₀.config i row)) ∧
    ∀ labels m₁ i record m₂ labels' m₃ psa stack user code,
      Run (Step hostsCtl) m₀ labels m₁ → Lists hostsCtl m₁ i record m₂ →
      Run (Step hostsCtl) m₂ labels' m₃ →
      let req := initRequest stack user code (some record.conname) (some record.conclass)
      m₃.phase = .serving psa req → Admitted hostsCtl psa req →
      ∃ row₀ j row, m₀.config[i]? = some row₀ ∧ row₀.conname = record.conname ∧
        row₀.conclass = record.conclass ∧
        getcondata m₀.config row₀.conname row₀.conclass = some j ∧ m₃.config[j]? = some row ∧
        (∀ junk pid now fx m₄, Step hostsCtl m₃ (.serve junk pid now, fx) m₄ →
          ActsOn m₃ req j row pid fx m₄) ∧
        (Foremost m₀.config i row₀ → record.active = 0 →
          (∀ l ∈ labels', ∀ junk pid now, l.1 ≠ .serve junk pid now) →
          code = reqMakeConnection → ∀ junk pid now fx m₄, 0 ≤ pid →
            Step hostsCtl m₃ (.serve junk pid now, fx) m₄ →
            fx.filterMap Effect.forked = [(pid, i)]) := by
  refine ⟨fun i row hrow => getcondata_own hrow, ?_⟩
  intro labels m₁ i record m₂ labels' m₃ psa stack user code hr₁ hlists hr₃ req hphase hadm
  obtain ⟨psa', req', junk', pid', now', fx', row₁, hphase₁, -, hstatus, hs, hrow₁, -, rfl⟩ :=
    hlists
  obtain ⟨row₀, hrow₀, hname, hclass⟩ := getElem?_of_names (names_of_run hr₁) hrow₁
  have hnames : names m₃.config = names m₀.config :=
    (names_of_run hr₃).trans (hs.names.trans (names_of_run hr₁))
  obtain ⟨j, -, hget, -, -, -, -, hiff⟩ := getcondata_own hrow₀
  -- the daemon looks the names up in the table it has by then
  have hget₃ : getcondata m₃.daemon.config req.conname.val req.conclass.val = some j := by
    refine (getcondata_initRequest m₃.daemon.config stack user code row₁).trans ?_
    rw [hname, hclass]
    exact (getcondata_congr _ _ hnames).trans hget
  obtain ⟨row, hrow, -⟩ := getcondata_some hget₃
  have haddr : Addresses m₃.daemon req j row := ⟨hget₃, hrow⟩
  refine ⟨row₀, j, row, hrow₀, hname.symm, hclass.symm, hget, hrow,
    fun junk pid now fx m₄ hs₄ => actsOn_of_addresses hphase hadm haddr hs₄, ?_⟩
  intro hfirst hactive hquiet hcode junk pid now fx m₄ hpid hs₄
  obtain rfl : j = i := hiff.mpr hfirst
  have hfree₁ : row₁.conpid = badPid := by
    by_contra hheld
    exact absurd hactive (by simp [rowRecord, hheld])
  -- a status request changes no row
  have hrow₂ : m₂.config[j]? = some row₁ := by
    obtain ⟨row₂, hrow₂, hstep⟩ := hs.row hrow₁
    cases hstep with
    | same => exact hrow₂
    | touched _ _ _ _ psa₂ req₂ hphase₂ _ hcode₂ _ hheld => exact absurd hfree₁ hheld
    | made _ _ _ _ psa₂ req₂ hphase₂ _ hcode₂ =>
        rw [hphase₁] at hphase₂
        obtain ⟨-, rfl⟩ := Phase.serving.inj hphase₂
        exact absurd (hstatus.symm.trans hcode₂) (by decide)
  obtain ⟨row₃, hrow₃, hfree₃⟩ := free_of_run hr₃ hquiet hrow₂ hfree₁
  obtain rfl : row₃ = row := Option.some.inj (hrow₃.symm.trans hrow)
  exact (actsOn_of_addresses hphase hadm haddr hs₄).makes hcode hfree₃ hpid

/-- Ann makes the row that was listed as the second one. -/
theorem listed_row_addressed_brig :
    ∃ record m₁ m₂ m₃ fx m₄, Lists noWrappers m₁ 1 record m₂ ∧ record.conname = text "brig" ∧
      Step noWrappers m₃ (.serve zeroReply 7 100, fx) m₄ ∧
      fx.filterMap Effect.forked = [(7, 1)] := by
  let asks := initRequest zeroRequest (text "ann") reqStatus none none
  let m₁ : Machine := { sampleMachine with phase := .serving sampleAddr asks }
  let r := processRequest noWrappers zeroReply (-1) 100 m₁.daemon sampleAddr asks
  let m₂ : Machine := ⟨r.1, newChildren r.2, .waiting⟩
  let record := rowRecord 100 brig
  let makes := initRequest zeroRequest (text "ann") reqMakeConnection (some record.conname)
    (some record.conclass)
  let m₃ : Machine := { m₂ with phase := .serving sampleAddr makes }
  have halive : ∀ c ∈ sampleMachine.children, c.dead = false := nofun
  have halive₂ : ∀ c ∈ m₂.children, c.dead = false := by
    have hnone : m₂.children = [] := rfl
    rw [hnone]
    exact nofun
  have hlists : Lists noWrappers m₁ 1 record m₂ :=
    ⟨sampleAddr, asks, zeroReply, -1, 100, r.2, brig, rfl, ⟨rfl, rfl⟩, rfl,
      step_serve (.inl rfl) zeroReply 100, rfl, by decide, rfl⟩
  have hrun₁ : Run (Step noWrappers) sampleMachine _ m₁ :=
    .cons (step_datagram rfl sampleAddr asks)
      (.single (step_noneDead halive (some (sampleAddr, asks))))
  have hrun₃ : Run (Step noWrappers) m₂ _ m₃ :=
    .cons (step_datagram rfl sampleAddr makes)
      (.single (step_noneDead halive₂ (some (sampleAddr, makes))))
  have hserve : Step noWrappers m₃ (.serve zeroReply 7 100, _) _ :=
    step_serve (by decide) zeroReply 100
  have hfirst : Foremost sampleMachine.config 1 brig := by
    intro k row' hk hrow' hsame
    obtain rfl : k = 0 := by omega
    obtain rfl : argo = row' := Option.some.inj hrow'
    exact absurd hsame.1 (by decide)
  obtain ⟨row₀, j, row, hrow₀, -, -, -, -, -, hfork⟩ := (listed_row_addressed noWrappers
    sampleMachine).2 _ _ _ _ _ _ _ _ _ _ _ hrun₁ hlists hrun₃ rfl ⟨rfl, rfl⟩
  obtain rfl := Option.some.inj hrow₀
  refine ⟨record, m₁, m₂, m₃, _, _, hlists, rfl, hserve, hfork hfirst rfl ?_ rfl _ _ _ _ _
    (by decide) hserve⟩
  intro l hl junk pid now
  rcases List.mem_pair.mp hl with rfl | rfl <;> simp

/-! ### The lookup and the listing -/

/-- A request with a name looks up the rows it would list. -/
theorem conMatches_eq_statusMatches {req : Request} (hname : req.conname.val.headD 0 ≠ 0) :
    conMatches req.conname.val req.conclass.val = statusMatches req := by
  funext row
  rw [conMatches, statusMatches, strnequ_comm row.conname, strnequ_comm row.conclass,
    decide_eq_false hname, Bool.false_or]

/-- The lookup finds the first row that matches. -/
theorem addresses_iff_matching {d : Daemon} {req : Request} (hname : req.conname.val.headD 0 ≠ 0)
    (i : ℕ) (row : Condata) :
    Addresses d req i row ↔ d.config[i]? = some row ∧ statusMatches req row = true ∧
      matching (d.config.take i) req = [] := by
  have hbefore (hi : i < d.config.length) : matching (d.config.take i) req = [] ↔
      ∀ j, (hj : j < i) → ¬statusMatches req (d.config.get ⟨j, hj.trans hi⟩) = true := by
    rw [matching, List.filter_eq_nil_iff]
    constructor
    · intro h j hj
      exact h _ (List.mem_take_iff_getElem.mpr ⟨j, by omega, rfl⟩)
    · intro h row hrow
      obtain ⟨j, hj, rfl⟩ := List.mem_take_iff_getElem.mp hrow
      exact h j (by omega)
  rw [Addresses, getcondata, conMatches_eq_statusMatches hname]
  constructor
  · rintro ⟨hget, hrow⟩
    obtain ⟨hi, hfound, hnone⟩ := List.findIdx?_eq_some_iff_getElem.mp hget
    obtain rfl : d.config[i] = row := (List.getElem?_eq_some_iff.mp hrow).2
    exact ⟨hrow, hfound, (hbefore hi).mpr hnone⟩
  · rintro ⟨hrow, hfound, hnone⟩
    obtain ⟨hi, rfl⟩ := List.getElem?_eq_some_iff.mp hrow
    exact ⟨List.findIdx?_eq_some_iff_getElem.mpr ⟨hi, hfound, (hbefore hi).mp hnone⟩, hrow⟩

/-- What follows the header of the reply that `Status` sends for this table. -/
def listing (junk : Reply) (hostname : List Byte) (config : List Condata) (req : Request)
    (now : ℤ) : List Byte :=
  (sendtoReply (status junk hostname config req now).1
    (status junk hostname config req now).2).drop (sizeofReply - maxDetails)

/-- The listing begins with the row number `i`: the rows in front of it are not
listed, and the record of the row is the first one. -/
structure ListsFirst (junk : Reply) (hostname : List Byte) (config : List Condata) (req : Request)
    (now : ℤ) (i : ℕ) (row : Condata) : Prop where
  place : config[i]? = some row
  before : listing junk hostname (config.take i) req now = []
  own : listing junk hostname (config.take (i + 1)) req now = encodeRecord (rowRecord now row)
  first : encodeRecord (rowRecord now row) <+: listing junk hostname config req now

section Listing

variable (junk : Reply) (hostname : List Byte)

theorem listing_eq (config : List Condata) (req : Request) (now : ℤ) :
    listing junk hostname config req now =
      ((matching config req).map (rowRecord now)).flatMap encodeRecord := by
  have hlen : sizeofReply - maxDetails = 70 := rfl
  rw [listing, hlen, status_bytes, List.drop_append, Reply.header_length,
    List.drop_of_length_le (Reply.header_length _).le]
  rfl

theorem encodeRecord_ne_nil (record : StatusreplyData) : encodeRecord record ≠ [] := by
  simp [encodeRecord]

/-- Nothing is listed exactly if no row matches. -/
theorem listing_eq_nil_iff (config : List Condata) (req : Request) (now : ℤ) :
    listing junk hostname config req now = [] ↔ matching config req = [] := by
  rw [listing_eq]
  constructor
  · intro hnil
    rw [List.flatMap_eq_nil_iff] at hnil
    rw [List.eq_nil_iff_forall_not_mem]
    intro row hrow
    exact encodeRecord_ne_nil _ (hnil _ (List.mem_map_of_mem hrow))
  · intro hnil
    rw [hnil]
    rfl

theorem matching_take_succ {config : List Condata} {i : ℕ} {row : Condata}
    (hrow : config[i]? = some row) (req : Request) :
    matching (config.take (i + 1)) req = matching (config.take i) req ++ matching [row] req := by
  rw [List.take_add_one, hrow, Option.toList_some, matching, List.filter_append]
  rfl

theorem matching_take_append_drop (config : List Condata) (i : ℕ) (req : Request) :
    matching config req = matching (config.take i) req ++ matching (config.drop i) req := by
  rw [matching, matching, matching, ← List.filter_append, List.take_append_drop]

/-- The lookup finds the first row of the listing. -/
theorem addresses_iff_listsFirst {d : Daemon} {req : Request}
    (hname : req.conname.val.headD 0 ≠ 0) (now : ℤ) (i : ℕ) (row : Condata) :
    Addresses d req i row ↔ ListsFirst junk hostname d.config req now i row := by
  rw [addresses_iff_matching hname]
  constructor
  · rintro ⟨hrow, hmatch, hnone⟩
    have hsucc : matching (d.config.take (i + 1)) req = [row] := by
      rw [matching_take_succ hrow, hnone, List.nil_append, matching,
        List.filter_cons_of_pos hmatch, List.filter_nil]
    refine ⟨hrow, (listing_eq_nil_iff ..).mpr hnone, ?_, ?_⟩
    · rw [listing_eq, hsucc, List.map_singleton, List.flatMap_singleton]
    · rw [listing_eq, matching_take_append_drop _ (i + 1), hsucc, List.map_append,
        List.flatMap_append, List.map_singleton, List.flatMap_singleton]
      exact List.prefix_append _ _
  · rintro ⟨hrow, hbefore, hown, -⟩
    have hnone := (listing_eq_nil_iff ..).mp hbefore
    refine ⟨hrow, ?_, hnone⟩
    -- otherwise the row would add nothing to the listing
    by_contra hmatch
    have hsucc : matching (d.config.take (i + 1)) req = [] := by
      rw [matching_take_succ hrow, hnone, List.nil_append, matching,
        List.filter_cons_of_neg hmatch, List.filter_nil]
    rw [(listing_eq_nil_iff ..).mpr hsucc] at hown
    exact encodeRecord_ne_nil _ hown.symm

/-- It finds nothing if nothing is listed. -/
theorem getcondata_eq_none_iff {config : List Condata} {req : Request}
    (hname : req.conname.val.headD 0 ≠ 0) (now : ℤ) :
    getcondata config req.conname.val req.conclass.val = none ↔
      listing junk hostname config req now = [] := by
  rw [listing_eq_nil_iff, getcondata, conMatches_eq_statusMatches hname,
    List.findIdx?_eq_none_iff, matching, List.filter_eq_nil_iff]
  simp only [Bool.not_eq_true]

end Listing

/-- Without a name it finds nothing in a table whose rows have names. -/
theorem getcondata_unnamed {config : List Condata} (hnamed : ∀ row ∈ config, row.conname ≠ [])
    {req : Request} (hname : req.conname.val.headD 0 = 0) :
    getcondata config req.conname.val req.conclass.val = none := by
  rw [getcondata, List.findIdx?_eq_none_iff]
  intro row hrow
  rw [Bool.eq_false_iff]
  intro hmatch
  obtain ⟨hsame, -⟩ := (conMatches_iff _ _ row).mp hmatch
  rw [(headD_eq_zero_iff _).mp hname, List.take_nil] at hsame
  exact hnamed row hrow hsame

/-! ### A pool of rows -/

/-- Two entries with the same names. -/
def poolFile : List Byte := text "pool mips /bin/cat\npool mips /bin/ed"

def poolWords (conprog : String) (h : (0 : Byte) ∉ text conprog := by decide) : List Config.Str :=
  [⟨text "pool", by decide⟩, ⟨text "mips", by decide⟩, ⟨text conprog, h⟩]

theorem poolFile_layout : Config.Layout [some (.entry (poolWords "/bin/cat")),
    some (.entry (poolWords "/bin/ed"))] poolFile := by
  have hcat : Config.Line (some (.entry (poolWords "/bin/cat"))) (text "pool mips /bin/cat") :=
    .entry .nil (.cons (by decide) (.blank (Or.inr rfl))
      (.cons (by decide) (.blank (Or.inr rfl)) (.single (by decide))))
      (by decide) .nil
  have hed : Config.Line (some (.entry (poolWords "/bin/ed"))) (text "pool mips /bin/ed") :=
    .entry .nil (.cons (by decide) (.blank (Or.inr rfl))
      (.cons (by decide) (.blank (Or.inr rfl)) (.single (by decide))))
      (by decide) .nil
  exact .cons hcat (.last hed)

/-- A host on which every name is another host's. -/
def sampleSystem : Config.System := ⟨fun _ => false, fun _ => CharArray.zero _, fun _ => 0⟩

/-- The file is accepted, and its two rows have the same names. -/
theorem poolFile_read :
    ∃ rows first second, Config.readConfigurationFile sampleSystem (some poolFile) = .ok rows ∧
      rows = [first, second] ∧ SameNames second first ∧ first.conprog ≠ second.conprog := by
  obtain ⟨rows, hread, hall⟩ := poolFile_layout.rows sampleSystem (by
    intro words hmem
    simp only [List.mem_cons, Option.some.injEq, Config.Item.entry.injEq, List.not_mem_nil,
      or_false] at hmem
    rcases hmem with rfl | rfl
    · exact ⟨by decide, by decide, by decide, by decide⟩
    · exact ⟨by decide, by decide, by decide, by decide⟩) (by decide)
  obtain ⟨first, rest, hfirst, hrest, rfl⟩ := List.forall₂_cons_right_iff.mp hall
  obtain ⟨second, rest, hsecond, hnil, rfl⟩ := List.forall₂_cons_right_iff.mp hrest
  obtain rfl := List.forall₂_nil_right_iff.mp hnil
  obtain ⟨hname, hclass, hprog, -⟩ := Config.IsRow.words hfirst
  obtain ⟨hname', hclass', hprog', -⟩ := Config.IsRow.words hsecond
  refine ⟨_, first, second, hread, rfl, ⟨hname.trans hname'.symm, .inr (hclass.trans hclass'.symm)⟩,
    ?_⟩
  rw [hprog, hprog']
  decide

/-- The names of the second row of the pool lead to the first. -/
theorem pool_row_unreachable :
    ∃ rows first second, Config.readConfigurationFile sampleSystem (some poolFile) = .ok rows ∧
      rows[0]? = some first ∧ rows[1]? = some second ∧ second ≠ first ∧
      getcondata rows second.conname second.conclass = some 0 := by
  obtain ⟨rows, first, second, hread, rfl, hsame, hprog⟩ := poolFile_read
  refine ⟨_, first, second, hread, rfl, rfl, ?_, ?_⟩
  · rintro rfl
    exact hprog rfl
  · rw [getcondata, List.findIdx?_cons, (conMatches_own second first).mpr hsame]
    rfl

end XinuConsole.Consoled
