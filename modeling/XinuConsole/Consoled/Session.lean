import XinuConsole.Consoled.Ownership

/-!
Sessions: the time from a granted make request to the collection of the child
forked for it.

`Step.row` says once what a step of the daemon can do to a single row; what
holds of a session along a run is derived from it.
-/

namespace XinuConsole.Consoled

open Lib ConnectUtils

/-- What a step can do to the row number `i`. -/
inductive RowStep (hostsCtl : Addr → List Byte → Bool) (m : Machine) (i : ℕ) (row : Condata) :
    Event × List Effect → Condata → Prop
  | same (l : Event × List Effect) : RowStep hostsCtl m i row l row
  | freed (fx : List Effect) (hdead : ∃ c ∈ m.children, c.pid = row.conpid ∧ c.dead = true) :
      RowStep hostsCtl m i row (.wait3 row.conpid, fx) (freeRow row.conpid row)
  | touched (junk : Reply) (pid now : ℤ) (fx : List Effect) (psa : Addr) (req : Request)
      (hphase : m.phase = .serving psa req) (hadm : Admitted hostsCtl psa req)
      (hcode : req.code = reqTouchConnection) (haddr : Addresses m.daemon req i row)
      (hheld : row.conpid ≠ badPid) (huser : cstr req.user.val = row.userName) :
      RowStep hostsCtl m i row (.serve junk pid now, fx) { row with contime := now }
  | made (junk : Reply) (pid now : ℤ) (fx : List Effect) (psa : Addr) (req : Request)
      (hphase : m.phase = .serving psa req) (hadm : Admitted hostsCtl psa req)
      (hcode : req.code = reqMakeConnection) (haddr : Addresses m.daemon req i row)
      (hfree : row.conpid = badPid) (hpid : 0 < pid)
      (hfork : fx.filterMap Effect.forked = [(pid, i)]) :
      RowStep hostsCtl m i row (.serve junk pid now, fx) (lockRow pid now req.user.val row)

/-- Comparing the whole fields is comparing the strings. -/
theorem strnequ_user_iff (row : Condata) (user : CharArray maxUserName) :
    strnequ row.user.val user.val maxUserName = true ↔ cstr user.val = row.userName := by
  have hrow : (cstr row.user.val).take maxUserName = row.userName :=
    List.take_of_length_le row.userName_length_lt.le
  have huser : (cstr user.val).take maxUserName = cstr user.val :=
    List.take_of_length_le ((cstr_length_le _).trans user.property.le)
  rw [strnequ_iff, hrow, huser, eq_comm]

/-- A change of the row a request addresses leaves the others alone. -/
theorem getElem?_of_modify {d : Daemon} {config : List Condata} {i j : ℕ} {row : Condata}
    {f : Condata → Condata} (hconfig : config = d.config.modify j f)
    (hrow : d.config[i]? = some row) :
    config[i]? = some (if j = i then f row else row) := by
  rw [hconfig]
  split
  · next hji => rw [hji, List.getElem?_modify_eq, hrow]; rfl
  · next hji => rw [List.getElem?_modify_ne _ _ hji, hrow]

theorem Step.row {hostsCtl : Addr → List Byte → Bool} {m m' : Machine} {l : Event × List Effect}
    (hs : Step hostsCtl m l m') {i : ℕ} {row : Condata} (hrow : m.config[i]? = some row) :
    ∃ row', m'.config[i]? = some row' ∧ RowStep hostsCtl m i row l row' := by
  have hrow : m.daemon.config[i]? = some row := hrow
  cases hs.cases with
  | exits pid => exact ⟨row, hrow, .same _⟩
  | received e fx pending => exact ⟨row, hrow, .same _⟩
  | wait3 childpid fx pending hphase hkill hfork hdead =>
      refine ⟨freeRow childpid row, by simp [Machine.config, collectChild, hrow], ?_⟩
      by_cases hpid : row.conpid = childpid
      · subst hpid
        exact .freed fx hdead
      · rw [Owned.freeRow_of_ne hpid]
        exact .same _
  | noneDead pending => exact ⟨row, hrow, .same _⟩
  | serve junk pid now psa req r hphase hpid hr hserved =>
      cases hserved with
      | same hconfig => exact ⟨row, by rw [← hrow]; exact congrArg (·[i]?) hconfig, .same _⟩
      | touched j row₀ hadm hcode haddr hheld huser hconfig =>
          refine ⟨_, getElem?_of_modify hconfig hrow, ?_⟩
          split
          · next hji =>
              subst hji
              obtain rfl : row₀ = row := Option.some.inj (haddr.2.symm.trans hrow)
              rw [touchRow, if_pos ⟨hheld, huser⟩]
              exact .touched junk pid now _ psa req hphase hadm hcode haddr hheld
                ((strnequ_user_iff _ _).mp huser)
          · exact .same _
      | made j row₀ hadm hcode haddr hfree hnonneg hconfig hfork =>
          refine ⟨_, getElem?_of_modify hconfig hrow, ?_⟩
          split
          · next hji =>
              subst hji
              obtain rfl : row₀ = row := Option.some.inj (haddr.2.symm.trans hrow)
              -- in the parent `fork` does not return 0
              have hpos : 0 < pid := by
                rcases hpid with h | h
                · omega
                · exact h.1
              exact .made junk pid now _ psa req hphase hadm hcode haddr hfree hpos hfork
          · exact .same _

theorem freeRow_self (row : Condata) :
    (freeRow row.conpid row).conpid = badPid ∧ (freeRow row.conpid row).userName = [] := by
  have hset : cstr (row.user.val.set 0 0) = [] := by
    obtain ⟨bs, hbs⟩ := row.user
    cases bs with
    | nil => simp at hbs
    | cons b bs => simp
  simpa [freeRow, Condata.userName, CharArray.set] using hset

theorem lockRow_userName (pid now : ℤ) (user : List Byte) (row : Condata) :
    (lockRow pid now user row).userName = (cstr user).take (maxUserName - 1) :=
  CharArray.cstr_strncpy row.user row.user_end user (by decide)

/-! ### A session along a run -/

/-- The row number `i` is held by the child `pid` for `user`. -/
def Session (m : Machine) (i : ℕ) (pid : ℤ) (user : List Byte) : Prop :=
  ∃ row, m.config[i]? = some row ∧ row.conpid = pid ∧ row.userName = user

section Session

variable {hostsCtl : Addr → List Byte → Bool} {m m' : Machine} {i : ℕ} {pid : ℤ}
  {user : List Byte}

/-- A session is kept by every step but the collection of its child. -/
theorem Session.step {l : Event × List Effect} (h : Session m i pid user) (hheld : pid ≠ badPid)
    (hs : Step hostsCtl m l m') : Session m' i pid user ∨ l.1 = .wait3 pid ∧
      ∃ row, m'.config[i]? = some row ∧ row.conpid = badPid ∧ row.userName = [] := by
  obtain ⟨row, hrow, rfl, rfl⟩ := h
  obtain ⟨row', hrow', hstep⟩ := hs.row hrow
  cases hstep with
  | same => exact .inl ⟨row, hrow', rfl, rfl⟩
  | freed fx => exact .inr ⟨rfl, _, hrow', freeRow_self row⟩
  | touched junk pid now fx psa req => exact .inl ⟨_, hrow', rfl, rfl⟩
  | made junk pid now fx psa req hphase hadm hcode haddr hfree => exact absurd hfree hheld

theorem Session.run {labels : List (Event × List Effect)} (h : Session m i pid user)
    (hheld : pid ≠ badPid) (hr : Run (Step hostsCtl) m labels m')
    (hreap : ∀ l ∈ labels, l.1 ≠ .wait3 pid) : Session m' i pid user :=
  hr.invariant_of_labels (I := fun _ => True) (J := fun m => Session m i pid user)
    (P := fun l => l.1 ≠ .wait3 pid) (fun _ _ _ _ _ => trivial)
    (fun _ _ _ _ hJ hl hs => (hJ.step hheld hs).resolve_right fun hc => hl hc.1) hreap trivial h

/-- A granted make request starts a session. -/
theorem session_of_fork {junk : Reply} {pid now : ℤ} {fx : List Effect} {psa : Addr}
    {req : Request} (hphase : m.phase = .serving psa req)
    (hs : Step hostsCtl m (.serve junk pid now, fx) m') {p : ℤ}
    (hfork : (p, i) ∈ fx.filterMap Effect.forked) :
    0 < p ∧ req.code = reqMakeConnection ∧
      Session m' i p ((cstr req.user.val).take (maxUserName - 1)) := by
  obtain ⟨hpid, r, -, rfl, rfl, hserved⟩ := hs.served hphase
  cases hserved with
  | same hconfig hnone => exact absurd hfork (by simp [hnone])
  | touched j row hadm hcode haddr hheld huser hconfig hnone =>
      exact absurd hfork (by simp [hnone])
  | made j row hadm hcode haddr hfree hnonneg hconfig hone =>
      rw [hone, List.mem_singleton] at hfork
      obtain ⟨rfl, rfl⟩ := Prod.mk.inj hfork
      refine ⟨?_, hcode, lockRow p now req.user.val row, ?_, rfl, lockRow_userName ..⟩
      · rcases hpid with h | h
        · omega
        · exact h.1
      · exact (getElem?_of_modify hconfig haddr.2).trans (by rw [if_pos rfl])

/-- A held row changes its user only after it was freed. -/
theorem freed_of_user_change {labels : List (Event × List Effect)}
    (hr : Run (Step hostsCtl) m labels m') {row row' : Condata} (hrow : m.config[i]? = some row)
    (hheld : row.conpid ≠ badPid) (hrow' : m'.config[i]? = some row')
    (hne : row'.userName ≠ row.userName) :
    ∃ as fx bs t t', labels = as ++ (.wait3 row.conpid, fx) :: bs ∧
      Run (Step hostsCtl) m as t ∧ Step hostsCtl t (.wait3 row.conpid, fx) t' ∧
      Run (Step hostsCtl) t' bs m' ∧
      ∃ r : Condata, t'.config[i]? = some r ∧ r.conpid = badPid ∧ r.userName = [] := by
  have hstart : Session m i row.conpid row.userName := ⟨row, hrow, rfl, rfl⟩
  have hend : ¬Session m' i row.conpid row.userName := by
    rintro ⟨r, hr', -, huser⟩
    obtain rfl : r = row' := by rw [hr'] at hrow'; exact Option.some.inj hrow'
    exact hne huser
  obtain ⟨as, ⟨e, fx⟩, bs, t, t', rfl, h₁, ht, hs, ht', h₂⟩ :=
    hr.exists_step_of_change (P := fun m => Session m i row.conpid row.userName) hstart hend
  obtain ⟨he, hfreed⟩ := (ht.step hheld hs).resolve_left ht'
  obtain rfl : e = _ := he
  exact ⟨as, fx, bs, t, t', rfl, h₁, hs, h₂, hfreed⟩

end Session

/-- Free rows have no user. -/
def FreeUnused (m : Machine) : Prop :=
  ∀ (i : ℕ) (row : Condata), m.config[i]? = some row → row.conpid = badPid → row.userName = []

theorem Step.config_length {hostsCtl : Addr → List Byte → Bool} {m m' : Machine}
    {l : Event × List Effect} (hs : Step hostsCtl m l m') :
    m'.config.length = m.config.length := by
  cases hs.cases with
  | wait3 => simp [Machine.config, collectChild]
  | serve junk pid now psa req r hphase hpid hr hserved =>
      cases hserved with
      | same hconfig => exact congrArg _ hconfig
      | touched j row hadm hcode haddr hheld huser hconfig => simp [Machine.config, hconfig]
      | made j row hadm hcode haddr hfree hnonneg hconfig => simp [Machine.config, hconfig]
  | _ => rfl

theorem FreeUnused.step {hostsCtl : Addr → List Byte → Bool} {m m' : Machine}
    {l : Event × List Effect} (h : FreeUnused m) (hs : Step hostsCtl m l m') : FreeUnused m' := by
  intro i row' hrow' hfree'
  have hlt : i < m.config.length := by
    rw [← hs.config_length]
    exact (List.getElem?_eq_some_iff.mp hrow').1
  obtain ⟨row₁, hrow₁, hstep⟩ := hs.row (List.getElem?_eq_getElem hlt)
  obtain rfl : row₁ = row' := by rw [hrow₁] at hrow'; exact Option.some.inj hrow'
  cases hstep with
  | same => exact h i _ (List.getElem?_eq_getElem hlt) hfree'
  | freed fx => exact (freeRow_self _).2
  | touched junk pid now fx psa req hphase hadm hcode haddr hheld => exact absurd hfree' hheld
  | made junk pid now fx psa req hphase hadm hcode haddr hfree hpid =>
      have hpid' : pid = badPid := hfree'
      rw [badPid] at hpid'
      omega

theorem FreeUnused.reachable {hostsCtl : Addr → List Byte → Bool} {m : Machine}
    (h : Reachable (Step hostsCtl) Init m) : FreeUnused m :=
  h.invariant (fun _ hi _ row hrow _ => (hi.free row (List.mem_of_getElem? hrow)).2)
    fun _ _ _ => FreeUnused.step

/-- The request is one that may change a row: a touch by the row's user, or a
make of a free row for which the daemon forked a child. -/
def Granted (hostsCtl : Addr → List Byte → Bool) (m : Machine) (psa : Addr) (req : Request)
    (fx : List Effect) : Prop :=
  Admitted hostsCtl psa req ∧ ∃ i row, Addresses m.daemon req i row ∧
    (req.code = reqTouchConnection ∧ row.conpid ≠ badPid ∧ cstr req.user.val = row.userName ∨
      req.code = reqMakeConnection ∧ row.conpid = badPid ∧
        ∃ p, (p, i) ∈ fx.filterMap Effect.forked)

/-- Every other request leaves the whole table as it is. -/
theorem config_eq_of_not_granted {hostsCtl : Addr → List Byte → Bool} {m m' : Machine}
    {junk : Reply} {pid now : ℤ} {fx : List Effect} {psa : Addr} {req : Request}
    (hphase : m.phase = .serving psa req) (hs : Step hostsCtl m (.serve junk pid now, fx) m')
    (hnot : ¬Granted hostsCtl m psa req fx) : m'.config = m.config := by
  obtain ⟨hpid, r, -, rfl, rfl, hserved⟩ := hs.served hphase
  cases hserved with
  | same hconfig => exact hconfig
  | touched j row hadm hcode haddr hheld huser hconfig =>
      exact absurd ⟨hadm, j, row, haddr, .inl ⟨hcode, hheld, (strnequ_user_iff _ _).mp huser⟩⟩ hnot
  | made j row hadm hcode haddr hfree hnonneg hconfig hone =>
      exact absurd ⟨hadm, j, row, haddr, .inr ⟨hcode, hfree, pid, by simp [hone]⟩⟩ hnot

/-- **Session integrity.** From a granted make request to the collection of its
child a row keeps its user and its child, and its time changes only by a touch
of that user; between two users a row is freed; free rows have no user; and a
request that is not granted changes nothing. -/
theorem session_integrity (hostsCtl : Addr → List Byte → Bool) {m : Machine}
    (h : Reachable (Step hostsCtl) Init m) :
    (∀ psa req junk pid now fx m₁ p i labels m₂, m.phase = .serving psa req →
      Step hostsCtl m (.serve junk pid now, fx) m₁ → (p, i) ∈ fx.filterMap Effect.forked →
      Run (Step hostsCtl) m₁ labels m₂ → (∀ l ∈ labels, l.1 ≠ .wait3 p) →
      ∃ row, m₂.config[i]? = some row ∧ row.conpid = p ∧
        row.userName = (cstr req.user.val).take (maxUserName - 1) ∧
        ∀ l m₃ row₃, Step hostsCtl m₂ l m₃ → l.1 ≠ .wait3 p → m₃.config[i]? = some row₃ →
          row₃.contime ≠ row.contime →
          ∃ psa' req', m₂.phase = .serving psa' req' ∧ req'.code = reqTouchConnection ∧
            Addresses m₂.daemon req' i row ∧ cstr req'.user.val = row.userName) ∧
    (∀ (labels : List (Event × List Effect)) (m' : Machine) (i : ℕ) (row row' : Condata),
      Run (Step hostsCtl) m labels m' → m.config[i]? = some row → row.conpid ≠ badPid →
      m'.config[i]? = some row' → row'.conpid ≠ badPid →
      row'.userName ≠ row.userName →
      ∃ as fx bs t t', labels = as ++ (.wait3 row.conpid, fx) :: bs ∧
        Run (Step hostsCtl) m as t ∧ Step hostsCtl t (.wait3 row.conpid, fx) t' ∧
        Run (Step hostsCtl) t' bs m' ∧
        ∃ r : Condata, t'.config[i]? = some r ∧ r.conpid = badPid ∧ r.userName = []) ∧
    (∀ (i : ℕ) (row : Condata), m.config[i]? = some row → row.conpid = badPid → row.userName = []) ∧
    (∀ psa req junk pid now fx m', m.phase = .serving psa req →
      Step hostsCtl m (.serve junk pid now, fx) m' → ¬Granted hostsCtl m psa req fx →
      m'.config = m.config) := by
  refine ⟨?_, ?_, FreeUnused.reachable h, ?_⟩
  · intro psa req junk pid now fx m₁ p i labels m₂ hphase hs hfork hr hreap
    obtain ⟨hpos, -, hsession⟩ := session_of_fork hphase hs hfork
    have hheld : p ≠ badPid := by rw [badPid]; omega
    obtain ⟨row, hrow, hpid, huser⟩ := hsession.run hheld hr hreap
    refine ⟨row, hrow, hpid, huser, fun l m₃ row₃ hs₃ hl hrow₃ htime => ?_⟩
    obtain ⟨row', hrow', hstep⟩ := hs₃.row hrow
    obtain rfl : row' = row₃ := Option.some.inj (hrow'.symm.trans hrow₃)
    -- of the four ways to step only a touch changes the time of a held row
    cases hstep with
    | same => exact absurd rfl htime
    | freed => exact absurd (congrArg Event.wait3 hpid) hl
    | touched _ _ _ _ psa' req' hphase' hadm hcode haddr _ huser' =>
        exact ⟨psa', req', hphase', hcode, haddr, huser'⟩
    | made _ _ _ _ psa' req' hphase' hadm hcode haddr hfree =>
        exact absurd (hpid.symm.trans hfree) hheld
  · intro labels m' i row row' hr hrow hheld hrow' _ hne
    exact freed_of_user_change hr hrow hheld hrow' hne
  · intro psa req junk pid now fx m' hphase hs hnot
    exact config_eq_of_not_granted hphase hs hnot

/-- Ann's session on a row while bob tries to touch, take and make it. -/
theorem session_integrity_ann :
    let es := sampleRound (sampleRequest reqMakeConnection "ann" "argo") 7 100 ++
      sampleRound (sampleRequest reqTouchConnection "bob" "argo") (-1) 200 ++
      sampleRound (sampleRequest reqMakeConnection "bob" "argo") 8 300
    ∃ m, after noWrappers sampleMachine es = some m ∧
      (m.config.map fun row => (row.conpid, row.userName, row.contime)) =
        [(7, text "ann", 100), (badPid, [], 0)] ∧
      FreeUnused m := by
  intro es
  have h : (after noWrappers sampleMachine es).isSome = true := by decide
  exact ⟨_, (Option.some_get h).symm, rfl,
    (session_integrity noWrappers (sampleMachine_reachable es h)).2.2.1⟩

end XinuConsole.Consoled
