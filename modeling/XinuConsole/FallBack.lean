import XinuConsole.SecondPort

/-!
The search for the second serial port that fails, in `lib/makeConnection.c`.

`findSecond` copies every name it asks for into the caller's buffer and leaves
the last one there, so what `makeConnection` falls back on is up to the answers.
Here the queries may be answered in any way, also when they are repeated.
-/

namespace XinuConsole.MakeConnection

open Lib ConnectUtils

/-! ### The names that may be asked for -/

/-- The row number `j` is the user's, and no row of the user up to it has a name
that is too long: the status of its second port may be asked for. -/
structure AskableAt (user : List Byte) (reply : Reply) (j : ℕ) : Prop where
  own : OwnAt user reply j
  short : ∀ j' ≤ j, OwnAt user reply j' → ¬TooLong (reply.stat j')

/-- The user has a row whose name is too long. -/
def HasLong (user : List Byte) (reply : Reply) : Prop :=
  ∃ j, OwnAt user reply j ∧ TooLong (reply.stat j)

/-- A search can fail: a reply that announces more rows than it has room for can
only be left early, and after a row that seems free some server has to be left
at a name that is too long. -/
structure CanFail (user : List Byte) (replies : List Reply) : Prop where
  ends : ∀ (i : ℕ) (reply : Reply), replies[i]? = some reply →
    atoi reply.numconnections.val ≤ maxConnections ∨ ∃ j, OwnAt user reply j
  resets : ∀ (i : ℕ) (reply : Reply), replies[i]? = some reply →
    atoi reply.numconnections.val ≤ maxConnections ∨ HasLong user reply ∨
      ∃ (i' : ℕ) (reply' : Reply), i < i' ∧ replies[i']? = some reply' ∧ HasLong user reply'

/-- No name is asked for behind the row number `j` of the server number `i`. -/
structure AskedLast (user : List Byte) (replies : List Reply) (i : ℕ) (reply : Reply) (j : ℕ) :
    Prop where
  server : replies[i]? = some reply
  asks : AskableAt user reply j
  behind : ∀ i' reply' j', i < i' → replies[i']? = some reply' → ¬AskableAt user reply' j'

/-- The server does not end the search with success: its row is the last one that
is asked about, or a later server is left at a name that is too long. -/
def EndsFailing (user : List Byte) (replies : List Reply) (i : ℕ) (reply : Reply) (j : ℕ) : Prop :=
  (∀ j', j < j' → ¬AskableAt user reply j') ∨
    ∃ (i' : ℕ) (reply' : Reply), i < i' ∧ replies[i']? = some reply' ∧ HasLong user reply'

section Outcomes

variable {user : List Byte} {i : ℕ} {reply : Reply}

/-- The buffer holds the name of the last row that is asked about, or what it held. -/
def LastName (user : List Byte) (reply : Reply) (a a' : CharArray maxConnectionName) : Prop :=
  ((∀ j, ¬AskableAt user reply j) ∧ a' = a) ∨ ∃ j, AskableAt user reply j ∧
    (∀ j', j < j' → ¬AskableAt user reply j') ∧ cstr a'.val = portName (reply.stat j)

/-- What the search of one server may do to its variables. -/
inductive Serves (user : List Byte) (reply : Reply) (s : Second) (a : CharArray maxConnectionName) :
    Second → CharArray maxConnectionName → Prop
  /-- It is left at a row that seems free. -/
  | free {s' : Second} {a' : CharArray maxConnectionName} (j : ℕ) (asks : AskableAt user reply j)
      (listnum : s'.listnum ≠ -1) (name : cstr a'.val = portName (reply.stat j)) :
      Serves user reply s a s' a'
  /-- It is left at a name that is too long, or not at all. -/
  | other {s' : Second} {a' : CharArray maxConnectionName}
      (ends : (HasLong user reply ∧ s'.listnum = -1) ∨ (¬HasLong user reply ∧
        atoi reply.numconnections.val ≤ maxConnections ∧ s'.listnum = s.listnum))
      (name : LastName user reply a a') : Serves user reply s a s' a'

/-- The rows of the user in front of the row number `j` have been asked about. -/
structure AskedUpTo (user : List Byte) (reply : Reply) (a : CharArray maxConnectionName) (j : ℕ)
    (a' : CharArray maxConnectionName) : Prop where
  short : ∀ j' < j, OwnAt user reply j' → ¬TooLong (reply.stat j')
  name : ((∀ j' < j, ¬OwnAt user reply j') ∧ a' = a) ∨ ∃ j₁ < j, OwnAt user reply j₁ ∧
    (∀ j' < j, j₁ < j' → ¬OwnAt user reply j') ∧ cstr a'.val = portName (reply.stat j₁)

variable {a a' : CharArray maxConnectionName} {j : ℕ}

theorem AskedUpTo.next (h : AskedUpTo user reply a j a') (hother : ¬OwnAt user reply j) :
    AskedUpTo user reply a (j + 1) a' := by
  have hbefore : ∀ j' < j + 1, OwnAt user reply j' → j' < j := by
    intro j' hj' hown
    rcases Nat.lt_succ_iff_lt_or_eq.mp hj' with hlt | rfl
    · exact hlt
    · exact absurd hown hother
  refine ⟨fun j' hj' hown => h.short j' (hbefore j' hj' hown) hown, ?_⟩
  rcases h.name with ⟨hnone, ha⟩ | ⟨j₁, hj₁, hown₁, hlast, hname⟩
  · exact .inl ⟨fun j' hj' hown => hnone j' (hbefore j' hj' hown) hown, ha⟩
  · exact .inr ⟨j₁, hj₁.trans (Nat.lt_succ_self j), hown₁,
      fun j' hj' hlt hown => hlast j' (hbefore j' hj' hown) hlt hown, hname⟩

theorem AskedUpTo.asked (h : AskedUpTo user reply a j a') (hown : OwnAt user reply j)
    (hshort : ¬TooLong (reply.stat j)) {a₁ : CharArray maxConnectionName}
    (ha₁ : cstr a₁.val = portName (reply.stat j)) : AskedUpTo user reply a (j + 1) a₁ := by
  refine ⟨fun j' hj' hown' => ?_,
    .inr ⟨j, Nat.lt_succ_self j, hown, fun j' hj' hlt => by omega, ha₁⟩⟩
  rcases Nat.lt_succ_iff_lt_or_eq.mp hj' with hlt | rfl
  · exact h.short j' hlt hown'
  · exact hshort

theorem AskedUpTo.askable (h : AskedUpTo user reply a j a') (hown : OwnAt user reply j)
    (hshort : ¬TooLong (reply.stat j)) : AskableAt user reply j := by
  refine ⟨hown, fun j' hj' hown' => ?_⟩
  rcases hj'.lt_or_eq with hlt | rfl
  · exact h.short j' hlt hown'
  · exact hshort

/-- The last name asked for, where the server is left at the row number `j` or ends there. -/
theorem AskedUpTo.last (h : AskedUpTo user reply a j a')
    (hend : ∀ j', j ≤ j' → ¬AskableAt user reply j') : LastName user reply a a' := by
  have hbefore : ∀ j', AskableAt user reply j' → j' < j := fun j' hasks =>
    Nat.lt_of_not_le fun hge => hend j' hge hasks
  rcases h.name with ⟨hnone, ha⟩ | ⟨j₁, hj₁, hown₁, hlast, hname⟩
  · exact .inl ⟨fun j' hasks => hnone j' (hbefore j' hasks) hasks.own, ha⟩
  · exact .inr ⟨j₁, ⟨hown₁, fun j' hj' => h.short j' (by omega)⟩,
      fun j' hj' hasks => hlast j' (hbefore j' hasks) hj' hasks.own, hname⟩

/-- The server is left at a name that is too long. -/
theorem AskedUpTo.serves_tooLong (h : AskedUpTo user reply a j a') (hown : OwnAt user reply j)
    (hlong : TooLong (reply.stat j)) {s s' : Second} (hs' : s'.listnum = -1) :
    Serves user reply s a s' a' :=
  .other (.inl ⟨⟨j, hown, hlong⟩, hs'⟩)
    (h.last fun _ hj' hasks => hasks.short j hj' hown hlong)

/-- The server is gone through. -/
theorem AskedUpTo.serves_through (h : AskedUpTo user reply a j a')
    (hj : j = (atoi reply.numconnections.val).toNat) (hstored : j ≤ maxConnections)
    {s s' : Second} (hs' : s'.listnum = s.listnum) : Serves user reply s a s' a' := by
  refine .other (.inr ⟨?_, by omega, hs'⟩) (h.last fun j' hj' hasks => ?_)
  · rintro ⟨j', hown, hlong⟩
    have hannounced := hown.announced
    exact h.short j' (by omega) hown hlong
  · have hannounced := hasks.own.announced
    omega

end Outcomes

/-! ### Every outcome of the queries -/

section Runs

variable {user : List Byte} {i : ℕ} {reply : Reply} {s s₀ : Second}
  {a a' : CharArray maxConnectionName} {k j : ℕ}

theorem wp_secondTaken (replies2 : ℕ → Option Reply) (i q : ℕ) (taken : Bool)
    {post : History → Bool → Prop} {h : History} (hpost : ∀ t, post h t) :
    Prog.wp (fun _ _ => True) (secondTaken replies2 i q taken) post h := by
  induction q generalizing taken with
  | zero => exact hpost taken
  | succ q ih =>
      rw [secondTaken]
      split
      · exact hpost true
      · split
        · exact wp_undefined _ |>.mpr trivial
        · exact ih _

/-- Whatever the queries are answered, one of these is what the search does. -/
theorem findInReply_serves (hk : j + k = (atoi reply.numconnections.val).toNat)
    (hj : j ≤ maxConnections) (hs : s.secname = some a') (hlistnum : s.listnum = s₀.listnum)
    (hasked : AskedUpTo user reply a j a') (h : History) :
    Prog.wp (fun _ _ => True) (findInReply user i reply k j s)
      (fun _ s' => ∃ a'', s'.secname = some a'' ∧ Serves user reply s₀ a s' a'') h := by
  induction k generalizing j s a' h with
  | zero => exact ⟨a', hs, hasked.serves_through hk hj hlistnum⟩
  | succ k ih =>
      rw [findInReply]
      split
      · exact wp_undefined _ |>.mpr trivial
      next hstored =>
      split
      · next hownname =>
        have hown : OwnAt user reply j := ⟨not_le.mp hstored, by omega, hownname⟩
        dsimp only
        split
        · next hlen =>
          exact ⟨a', hs, hasked.serves_tooLong hown ((strnlen_iff _).mp hlen) rfl⟩
        next hlen =>
        have hshort : ¬TooLong (reply.stat j) := fun hlong => hlen ((strnlen_iff _).mpr hlong)
        rw [hs]
        simp only [Prog.wp_bind, wp_obtainStatus]
        refine ⟨trivial, fun answers => wp_secondTaken _ _ _ _ fun taken => ?_⟩
        have hname := cstr_secondName a' hshort
        cases taken with
        | true =>
            refine ih (by omega) (not_le.mp hstored) ?_ ?_
              (hasked.asked hown hshort hname) _
            · rfl
            · exact hlistnum
        | false =>
            refine ⟨_, rfl, .free j (hasked.askable hown hshort) ?_ hname⟩
            show (j : ℤ) ≠ -1
            omega
      · next hownname =>
        exact ih (by omega) (not_le.mp hstored) hs hlistnum
          (hasked.next fun hown => hownname hown.own) h

/-- A reply whose first row is active. -/
def busyReply : Reply :=
  statusReply "xinu" [⟨text "argo2", text "uart", 1, text "bob", text "00:05:00"⟩]

theorem busyReply_active :
    0 < atoi busyReply.numconnections.val ∧ (busyReply.stat 0).active = 1 := by
  decide +kernel

/-- The status of a row's second port can be such that the search goes on. -/
theorem findInReply_runs_next (hown : OwnAt user reply j) (hshort : ¬TooLong (reply.stat j))
    (hs : s.secname = some a) :
    ∃ (op : Op) (r : Res op) (s₁ : Second) (a₁ : CharArray maxConnectionName),
      s₁.secname = some a₁ ∧ cstr a₁.val = portName (reply.stat j) ∧ s₁.listnum = s.listnum ∧
      ∀ h s', Prog.Runs (findInReply user i reply k (j + 1) s₁) h s' →
        Prog.Runs (findInReply user i reply (k + 1) j s) (⟨op, r⟩ :: h) s' := by
  let answers : List Reply := List.replicate (i + 1) busyReply
  let replies2 : ℕ → Option Reply := fun q => (answers[q]?).or (s.replies2 q)
  have hentry : replies2 i = some busyReply := by
    simp [replies2, answers]
  have htaken := secondTaken_of_entry replies2 i i hentry
  rw [decide_eq_true busyReply_active] at htaken
  let a₁ := secondName a (reply.stat j).conname
    ((cstr (reply.stat j).conname).take maxConnectionName).length
  refine ⟨.obtainStatus (some a₁.val) (some getdfltSecClass) none, answers,
    ⟨some a₁, s.listnum, replies2⟩, a₁, rfl, cstr_secondName a hshort, rfl, fun h s' hrun => ?_⟩
  rw [findInReply, if_neg (not_le.mpr hown.stored), if_pos hown.own]
  dsimp only
  rw [if_neg (fun hlen => hshort ((strnlen_iff _).mp hlen)), hs]
  refine runs_call (Op.obtainStatus ..) answers ?_
  have hlen : answers.length = i + 1 := List.length_replicate
  rw [hlen]
  show Prog.Runs (secondTaken replies2 i (i + 1) false >>= _) h s'
  rw [htaken]
  exact hrun

/-- It can also be such that the port seems free. -/
theorem findInReply_runs_stop (hown : OwnAt user reply j) (hshort : ¬TooLong (reply.stat j))
    (hs : s.secname = some a) : ∃ h s' a', s'.secname = some a' ∧
      cstr a'.val = portName (reply.stat j) ∧
      Prog.Runs (findInReply user i reply (k + 1) j s) h s' := by
  let a₁ := secondName a (reply.stat j).conname
    ((cstr (reply.stat j).conname).take maxConnectionName).length
  refine ⟨[⟨.obtainStatus (some a₁.val) (some getdfltSecClass) none, ([] : List Reply)⟩],
    ⟨some a₁, j, fun q => (([] : List Reply)[q]?).or (s.replies2 q)⟩, a₁, rfl,
    cstr_secondName a hshort, ?_⟩
  rw [findInReply, if_neg (not_le.mpr hown.stored), if_pos hown.own]
  dsimp only
  rw [if_neg (fun hlen => hshort ((strnlen_iff _).mp hlen)), hs]
  exact runs_call (Op.obtainStatus ..) ([] : List Reply) (.ret _)

/-- Any row that may be asked about can be the one that seems free. -/
theorem findInReply_runs_free {j₀ : ℕ} (hj : j ≤ j₀) (hk : j₀ < j + k)
    (hasks : AskableAt user reply j₀) (hs : s.secname = some a) :
    ∃ h s' a', s'.secname = some a' ∧ cstr a'.val = portName (reply.stat j₀) ∧
      Prog.Runs (findInReply user i reply k j s) h s' := by
  induction k generalizing j s a with
  | zero => omega
  | succ k ih =>
      rcases hj.lt_or_eq with hlt | rfl
      · have hstored : j < maxConnections := hlt.trans hasks.own.stored
        by_cases hownname : strnequ (reply.stat j).user user maxUserName = true
        · have hannounced := hasks.own.announced
          have hown : OwnAt user reply j := ⟨hstored, by omega, hownname⟩
          obtain ⟨op, r, s₁, a₁, hs₁, -, -, hruns⟩ :=
            findInReply_runs_next (i := i) (k := k) hown (hasks.short j hj hown) hs
          obtain ⟨h, s', a', hs', hname, hrun⟩ := ih (j := j + 1) (by omega) (by omega) hs₁
          exact ⟨_, s', a', hs', hname, hruns h s' hrun⟩
        · rw [findInReply_other user hstored hownname]
          exact ih (by omega) (by omega) hs
      · exact findInReply_runs_stop hasks.own (hasks.short j le_rfl hasks.own) hs

/-- No port need seem free, where the server can be left or gone through. -/
theorem findInReply_runs_other (hk : j + k = (atoi reply.numconnections.val).toNat)
    (hj : j ≤ maxConnections) (hends : HasLong user reply ∨
      atoi reply.numconnections.val ≤ maxConnections) (hs : s.secname = some a')
    (hlistnum : s.listnum = s₀.listnum) (hasked : AskedUpTo user reply a j a') :
    ∃ h s' a'', s'.secname = some a'' ∧ Prog.Runs (findInReply user i reply k j s) h s' ∧
      ((HasLong user reply ∧ s'.listnum = -1) ∨
        (¬HasLong user reply ∧ s'.listnum = s₀.listnum)) ∧
      LastName user reply a a'' := by
  induction k generalizing j s a' with
  | zero =>
      refine ⟨[], s, a', hs, .ret s, .inr ⟨?_, hlistnum⟩, hasked.last fun j' hj' hasks => ?_⟩
      · rintro ⟨j', hown, hlong⟩
        have hannounced := hown.announced
        exact hasked.short j' (by omega) hown hlong
      · have hannounced := hasks.own.announced
        omega
  | succ k ih =>
      have hstored : j < maxConnections := by
        rcases hj.lt_or_eq with hlt | rfl
        · exact hlt
        · rcases hends with ⟨j', hown, hlong⟩ | hcount
          · exact absurd hlong (hasked.short j' hown.stored hown)
          · omega
      by_cases hownname : strnequ (reply.stat j).user user maxUserName = true
      · have hown : OwnAt user reply j := ⟨hstored, by omega, hownname⟩
        by_cases hlong : TooLong (reply.stat j)
        · refine ⟨[], { s with listnum := -1 }, a', hs, ?_, .inl ⟨⟨j, hown, hlong⟩, rfl⟩,
            hasked.last fun j' hj' hasks => hasks.short j hj' hown hlong⟩
          rw [findInReply_tooLong user hstored hownname hlong]
          exact .ret _
        · obtain ⟨op, r, s₁, a₁, hs₁, hname, hlistnum₁, hruns⟩ :=
            findInReply_runs_next (i := i) (k := k) hown hlong hs
          obtain ⟨h, s', a'', hs', hrun, hrest⟩ := ih (by omega) hstored hs₁
            (hlistnum₁.trans hlistnum) (hasked.asked hown hlong hname)
          exact ⟨_, s', a'', hs', hruns h s' hrun, hrest⟩
      · rw [findInReply_other user hstored hownname]
        exact ih (by omega) hstored hs hlistnum (hasked.next fun hown => hownname hown.own)

theorem askedUpTo_zero : AskedUpTo user reply a 0 a :=
  ⟨fun j' hj' => absurd hj' (Nat.not_lt_zero j'),
    .inl ⟨fun j' hj' => absurd hj' (Nat.not_lt_zero j'), rfl⟩⟩

end Runs

section Servers

variable {user : List Byte} {replies : List Reply} {reply : Reply} {name : List Byte}

/-- What holds after these servers whatever the queries were answered. -/
structure Reached (user : List Byte) (replies : List Reply) (name : List Byte) (s : Second) :
    Prop where
  ends : ∀ (i : ℕ) (reply : Reply), replies[i]? = some reply →
    atoi reply.numconnections.val ≤ maxConnections ∨ ∃ j, OwnAt user reply j
  resets : s.listnum = -1 → ∀ (i : ℕ) (reply : Reply), replies[i]? = some reply →
    atoi reply.numconnections.val ≤ maxConnections ∨ HasLong user reply ∨
      ∃ (i' : ℕ) (reply' : Reply), i < i' ∧ replies[i']? = some reply' ∧ HasLong user reply'
  buffer : ∃ a, s.secname = some a ∧ (cstr a.val = name ∨
    ∃ i reply j, AskedLast user replies i reply j ∧
      (s.listnum = -1 → EndsFailing user replies i reply j) ∧ cstr a.val = portName (reply.stat j))

theorem EndsFailing.concat {i : ℕ} {r : Reply} {j : ℕ} (h : EndsFailing user replies i r j) :
    EndsFailing user (replies ++ [reply]) i r j :=
  h.imp_right fun ⟨i', r', hi', hr', hlong⟩ =>
    ⟨i', r', hi', getElem?_concat_iff.mpr (.inl hr'), hlong⟩

theorem AskedLast.concat_self {j : ℕ} (h : AskableAt user reply j) :
    AskedLast user (replies ++ [reply]) replies.length reply j := by
  refine ⟨getElem?_concat_iff.mpr (.inr ⟨rfl, rfl⟩), h, fun i r j' hi hr => ?_⟩
  have hlen := (List.getElem?_eq_some_iff.mp hr).1
  rw [List.length_append, List.length_singleton] at hlen
  omega

theorem AskedLast.concat {i : ℕ} {r : Reply} {j : ℕ} (h : AskedLast user replies i r j)
    (hnone : ∀ j', ¬AskableAt user reply j') : AskedLast user (replies ++ [reply]) i r j := by
  refine ⟨getElem?_concat_iff.mpr (.inl h.server), h.asks, fun i' r' j' hi' hr' => ?_⟩
  rcases getElem?_concat_iff.mp hr' with hr' | ⟨-, rfl⟩
  · exact h.behind i' r' j' hi' hr'
  · exact hnone j'

/-- One more server. -/
theorem Reached.concat {s s' : Second} (h : Reached user replies name s)
    {a a' : CharArray maxConnectionName} (hs : s.secname = some a) (hs' : s'.secname = some a')
    (hserves : Serves user reply s a s' a') : Reached user (replies ++ [reply]) name s' := by
  have hserver : (replies ++ [reply])[replies.length]? = some reply :=
    getElem?_concat_iff.mpr (.inr ⟨rfl, rfl⟩)
  cases hserves with
  | free j hasks hlistnum hname =>
      refine ⟨fun i r hr => ?_, fun hfail => absurd hfail hlistnum, a', hs', .inr ⟨_, _, j,
        AskedLast.concat_self hasks, fun hfail => absurd hfail hlistnum, hname⟩⟩
      rcases getElem?_concat_iff.mp hr with hr | ⟨-, rfl⟩
      · exact h.ends i r hr
      · exact .inr ⟨j, hasks.own⟩
  | other hends hname =>
      refine ⟨fun i r hr => ?_, fun hfail i r hr => ?_, a', hs', ?_⟩
      · rcases getElem?_concat_iff.mp hr with hr | ⟨-, rfl⟩
        · exact h.ends i r hr
        · rcases hends with ⟨⟨j, hown, -⟩, -⟩ | ⟨-, hcount, -⟩
          · exact .inr ⟨j, hown⟩
          · exact .inl hcount
      · have hi := (List.getElem?_eq_some_iff.mp hr).1
        rw [List.length_append, List.length_singleton] at hi
        rcases hends with ⟨hlong, -⟩ | ⟨-, hcount, hlistnum⟩
        · rcases getElem?_concat_iff.mp hr with hr | ⟨-, rfl⟩
          · exact .inr (.inr ⟨_, _, (List.getElem?_eq_some_iff.mp hr).1, hserver, hlong⟩)
          · exact .inr (.inl hlong)
        · rcases getElem?_concat_iff.mp hr with hr | ⟨-, rfl⟩
          · exact (h.resets (hlistnum ▸ hfail) i r hr).imp_right fun hreset =>
              hreset.imp_right fun ⟨i', r', hi', hr', hlong⟩ =>
                ⟨i', r', hi', getElem?_concat_iff.mpr (.inl hr'), hlong⟩
          · exact .inl hcount
      · rcases hname with ⟨hnone, rfl⟩ | ⟨j, hasks, hlast, hname⟩
        · obtain ⟨a₁, ha₁, hbuffer⟩ := h.buffer
          obtain rfl : a' = a₁ := Option.some.inj (hs.symm.trans ha₁)
          refine hbuffer.imp_right fun ⟨i, r, j, hasked, hfails, hport⟩ =>
            ⟨i, r, j, hasked.concat hnone, fun hfail => ?_, hport⟩
          rcases hends with ⟨hlong, -⟩ | ⟨-, -, hlistnum⟩
          · exact .inr ⟨_, _, (List.getElem?_eq_some_iff.mp hasked.server).1, hserver, hlong⟩
          · exact (hfails (hlistnum ▸ hfail)).concat
        · exact .inr ⟨_, _, j, AskedLast.concat_self hasks, fun _ => .inl hlast, hname⟩

/-- A search that has a result has passed all servers in one of these ways. -/
theorem findSecond_reached (user : List Byte) (replies : List Reply)
    (b : CharArray maxConnectionName) (h : History) :
    Prog.wp (fun _ _ => True) (findSecond user replies (some b))
      (fun _ s => Reached user replies (cstr b.val) s) h := by
  rw [findSecond]
  induction replies using List.reverseRecOn with
  | nil => exact ⟨by simp, by simp, b, rfl, .inl rfl⟩
  | append_singleton replies reply ih =>
      rw [findSecondFrom_concat, Nat.zero_add, Prog.wp_bind]
      refine Prog.wp_mono (fun h' s _ hreached => ?_) ih
      obtain ⟨a, hs, -⟩ := hreached.buffer
      refine Prog.wp_mono ?_
        (findInReply_serves (Nat.zero_add _) (Nat.zero_le _) hs rfl askedUpTo_zero h')
      rintro h'' s' - ⟨a', hs', hserves⟩
      exact hreached.concat hs hs' hserves

/-- After the servers up to the number `n`, in a run that fails with the name of
the row number `j₀` of the server number `i₀`. -/
structure Heading (user : List Byte) (replies : List Reply) (i₀ : ℕ) (name : List Byte) (n : ℕ)
    (s : Second) : Prop where
  buffer : ∃ a, s.secname = some a ∧ (i₀ < n → cstr a.val = name)
  pending : s.listnum ≠ -1 → ∃ (i : ℕ) (reply : Reply), n ≤ i ∧ replies[i]? = some reply ∧
    HasLong user reply

section Heading

variable {i₀ n j₀ : ℕ} {reply₀ : Reply} {s : Second}
  (h : Heading user replies i₀ (portName (reply₀.stat j₀)) n s) (hserver : replies[n]? = some reply)

include h

/-- The server is left at the row number `j`, where a later one resets the result. -/
theorem Heading.free {j : ℕ} (hasks : AskableAt user reply j)
    (hlater : ∃ (i : ℕ) (reply' : Reply), n < i ∧ replies[i]? = some reply' ∧ HasLong user reply')
    (hname : i₀ ≤ n → portName (reply.stat j) = portName (reply₀.stat j₀)) :
    ∃ calls s', Prog.Runs
        (findInReply user n reply (atoi reply.numconnections.val).toNat 0 s) calls s' ∧
      Heading user replies i₀ (portName (reply₀.stat j₀)) (n + 1) s' := by
  obtain ⟨a, hs, -⟩ := h.buffer
  have hannounced := hasks.own.announced
  obtain ⟨calls, s', a', hs', hname', hrun⟩ := findInReply_runs_free (i := n)
    (k := (atoi reply.numconnections.val).toNat) (Nat.zero_le j) (by omega) hasks hs
  exact ⟨calls, s', hrun, ⟨a', hs', fun hlt => hname'.trans (hname (Nat.le_of_lt_succ hlt))⟩,
    fun _ => hlater⟩

include hserver

/-- The server is left at a name that is too long, or gone through. -/
theorem Heading.other (hasked : AskedLast user replies i₀ reply₀ j₀)
    (hother : HasLong user reply ∨ atoi reply.numconnections.val ≤ maxConnections)
    (hlast : n = i₀ → ∀ j', j₀ < j' → ¬AskableAt user reply₀ j') :
    ∃ calls s', Prog.Runs
        (findInReply user n reply (atoi reply.numconnections.val).toNat 0 s) calls s' ∧
      Heading user replies i₀ (portName (reply₀.stat j₀)) (n + 1) s' := by
  obtain ⟨a, hs, hname⟩ := h.buffer
  obtain ⟨calls, s', a', hs', hrun, hresult, hnamed⟩ := findInReply_runs_other (i := n)
    (Nat.zero_add _) (Nat.zero_le _) hother hs rfl askedUpTo_zero
  refine ⟨calls, s', hrun, ⟨a', hs', fun hlt => ?_⟩, fun hne => ?_⟩
  · rcases Nat.lt_succ_iff_lt_or_eq.mp hlt with hlt | rfl
    · -- nothing is asked behind the server
      rcases hnamed with ⟨-, rfl⟩ | ⟨j, hasks, -⟩
      · exact hname hlt
      · exact absurd hasks (hasked.behind n reply j hlt hserver)
    · obtain rfl : reply = reply₀ := Option.some.inj (hserver.symm.trans hasked.server)
      rcases hnamed with ⟨hnone, -⟩ | ⟨j, hasks, hbehind, hname'⟩
      · exact absurd hasked.asks (hnone j₀)
      · obtain rfl : j = j₀ := by
          rcases lt_trichotomy j j₀ with hlt | heq | hlt
          · exact absurd hasked.asks (hbehind j₀ hlt)
          · exact heq
          · exact absurd hasks (hlast rfl j hlt)
        exact hname'
  · rcases hresult with ⟨-, hlistnum⟩ | ⟨hnolong, hlistnum⟩
    · exact absurd hlistnum hne
    · obtain ⟨i, reply', hi, hreply', hlong⟩ := h.pending (hlistnum ▸ hne)
      refine ⟨i, reply', ?_, hreply', hlong⟩
      rcases hi.lt_or_eq with hlt | rfl
      · exact hlt
      · obtain rfl : reply = reply' := Option.some.inj (hserver.symm.trans hreply')
        exact absurd hlong hnolong

/-- One more server. -/
theorem Heading.next (hfail : CanFail user replies) (hasked : AskedLast user replies i₀ reply₀ j₀)
    (hends : EndsFailing user replies i₀ reply₀ j₀) :
    ∃ calls s', Prog.Runs
        (findInReply user n reply (atoi reply.numconnections.val).toNat 0 s) calls s' ∧
      Heading user replies i₀ (portName (reply₀.stat j₀)) (n + 1) s' := by
  by_cases hother : HasLong user reply ∨ atoi reply.numconnections.val ≤ maxConnections
  · by_cases hhere : n = i₀ ∧ ∃ (i : ℕ) (reply' : Reply), i₀ < i ∧
        replies[i]? = some reply' ∧ HasLong user reply'
    · obtain ⟨rfl, hlater⟩ := hhere
      obtain rfl : reply = reply₀ := Option.some.inj (hserver.symm.trans hasked.server)
      exact h.free hasked.asks hlater fun _ => rfl
    · exact h.other hserver hasked hother fun heq =>
        hends.resolve_right fun hlater => hhere ⟨heq, hlater⟩
  · rw [not_or] at hother
    have hlater := ((hfail.resets n reply hserver).resolve_left hother.2).resolve_left hother.1
    obtain ⟨j, hown⟩ := (hfail.ends n reply hserver).resolve_left hother.2
    have hasks : AskableAt user reply j :=
      ⟨hown, fun j' _ hown' hlong => hother.1 ⟨j', hown', hlong⟩⟩
    rcases lt_trichotomy n i₀ with hlt | rfl | hlt
    · exact h.free hasks hlater fun hle => absurd hlt (not_lt.mpr hle)
    · obtain rfl : reply = reply₀ := Option.some.inj (hserver.symm.trans hasked.server)
      exact h.free hasked.asks hlater fun _ => rfl
    · exact absurd hasks (hasked.behind n reply j hlt hserver)

end Heading

/-- Where the search can fail, any of these names can be the one it fails with. -/
theorem findSecond_fails (hfail : CanFail user replies) {i₀ : ℕ} {reply₀ : Reply} {j₀ : ℕ}
    (hasked : AskedLast user replies i₀ reply₀ j₀)
    (hends : EndsFailing user replies i₀ reply₀ j₀) (b : CharArray maxConnectionName) (n : ℕ)
    (hn : n ≤ replies.length) : ∃ h s,
      Prog.Runs (findSecondFrom user 0 (replies.take n) ⟨some b, -1, fun _ => none⟩) h s ∧
      Heading user replies i₀ (portName (reply₀.stat j₀)) n s := by
  induction n with
  | zero => exact ⟨[], _, .ret _, ⟨b, rfl, fun h => absurd h (Nat.not_lt_zero i₀)⟩,
      fun h => absurd rfl h⟩
  | succ n ih =>
      obtain ⟨h, s, hrun, hheading⟩ := ih (by omega)
      obtain ⟨reply, hserver⟩ : ∃ reply, replies[n]? = some reply :=
        ⟨_, List.getElem?_eq_getElem (by omega)⟩
      have htake : replies.take (n + 1) = replies.take n ++ [reply] := by
        rw [List.take_add_one, hserver]
        rfl
      have hlen : (replies.take n).length = n := by
        rw [List.length_take]
        omega
      rw [htake, findSecondFrom_concat, hlen, Nat.zero_add]
      obtain ⟨h', s', hrun', hheading'⟩ := hheading.next hserver hfail hasked hends
      exact ⟨_, s', hrun.bind hrun', hheading'⟩

end Servers

/-! ### When the name is left -/

/-- A search that fails leaves the caller's name in the buffer whatever its
queries are answered, and `makeConnection` goes on with that name and the default
class. -/
def FallsBack (user : List Byte) (replies : List Reply) (b : CharArray maxConnectionName)
    (envClass : Option (List Byte)) (k : Classes) (cls : Option (CharArray maxClassName))
    (host : Option (CharArray maxHostName)) : Prop :=
  ∀ h s, Prog.Runs (findSecond user replies (some b)) h s → s.listnum = -1 →
    ∃ dflt k' a a', Prog.Runs (secondSerial envClass user k ⟨some b, cls, host⟩)
        (⟨.obtainStatus none (some dflt) (host.map Subtype.val), replies⟩ :: h) (k', some a) ∧
      s.secname = some a ∧ cstr a.val = cstr b.val ∧ k'.pointee = some a' ∧
      cstr a'.val = (cstr (getdfltClass envClass none none)).take maxClassName

section FallBack

variable {user : List Byte} {replies : List Reply} {b : CharArray maxConnectionName}

theorem secondSerial_runs (envClass : Option (List Byte)) (k : Classes)
    (cls : Option (CharArray maxClassName)) (host : Option (CharArray maxHostName)) {h : History}
    {s : Second} (hrun : Prog.Runs (findSecond user replies (some b)) h s)
    (hfail : s.listnum = -1) : ∃ (dflt : List Byte) (dclass : CharArray maxClassName),
      Prog.Runs (secondSerial envClass user k ⟨some b, cls, host⟩)
        (⟨.obtainStatus none (some dflt) (host.map Subtype.val), replies⟩ :: h)
        ({ k with dclass := dclass, atLocal := true }, s.secname) ∧
      cstr dclass.val = (cstr (getdfltClass envClass none none)).take maxClassName := by
  let dflt := getdfltClass envClass none none
  refine ⟨(k.dclass.strncpy dflt maxClassName).val,
    (k.dclass.strncpy dflt maxClassName).strncpy dflt maxClassName, ?_, ?_⟩
  · refine runs_call (Op.obtainStatus none (some (k.dclass.strncpy dflt maxClassName).val)
      (host.map Subtype.val)) replies ?_
    have hbind := hrun.bind (f := fun s : Second => (pure
      (({ k with
          dclass :=
            if s.listnum ≠ -1 then
              ((k.dclass.strncpy dflt maxClassName).set 0 0).strncpy getdfltSecClass maxClassName
            else (k.dclass.strncpy dflt maxClassName).strncpy dflt maxClassName
          atLocal := true } : Classes), s.secname) : Client _)) (.ret _)
    rw [List.append_nil, if_neg (not_not.mpr hfail)] at hbind
    exact hbind
  · have hlen := (k.dclass.strncpy dflt maxClassName).property
    show cstr (strncpyBytes dflt maxClassName ++
      (k.dclass.strncpy dflt maxClassName).val.drop maxClassName) = _
    rw [List.drop_of_length_le hlen.le, List.append_nil, cstr_strncpyBytes_self]

/-- **The fall-back.** Every row that can be the last one asked about in a search
that fails must have the second name that the caller gave. -/
theorem fallsBack_iff (user : List Byte) (replies : List Reply) (b : CharArray maxConnectionName)
    (envClass : Option (List Byte)) (k : Classes) (cls : Option (CharArray maxClassName))
    (host : Option (CharArray maxHostName)) :
    FallsBack user replies b envClass k cls host ↔
      (CanFail user replies → ∀ i reply j, AskedLast user replies i reply j →
        EndsFailing user replies i reply j → portName (reply.stat j) = cstr b.val) := by
  constructor
  · intro hback hfail i reply j hasked hends
    obtain ⟨h, s, hrun, ⟨a, hs, hname⟩, hpending⟩ :=
      findSecond_fails hfail hasked hends b replies.length le_rfl
    rw [List.take_length] at hrun
    have hlistnum : s.listnum = -1 := by
      by_contra hne
      obtain ⟨i', reply', hi', hreply', -⟩ := hpending hne
      exact absurd (List.getElem?_eq_some_iff.mp hreply').1 (not_lt.mpr hi')
    obtain ⟨-, -, a', -, -, ha', hsame, -⟩ := hback h s hrun hlistnum
    obtain rfl : a = a' := Option.some.inj (hs.symm.trans ha')
    rw [← hname (List.getElem?_eq_some_iff.mp hasked.server).1, hsame]
  · intro hnames h s hrun hlistnum
    have hreached : Reached user replies (cstr b.val) s :=
      hrun.post (findSecond_reached user replies b [])
    obtain ⟨a, hs, hbuffer⟩ := hreached.buffer
    obtain ⟨dflt, dclass, hserial, hclass⟩ := secondSerial_runs envClass k cls host hrun hlistnum
    refine ⟨dflt, _, a, dclass, hs ▸ hserial, hs, ?_, rfl, hclass⟩
    rcases hbuffer with hsame | ⟨i, reply, j, hasked, hends, hname⟩
    · exact hsame
    · exact hname.trans (hnames ⟨hreached.ends, hreached.resets hlistnum⟩ i reply j hasked
        (hends hlistnum))

/-- Where bob holds `argo2`, a search for any second port ends with that name. -/
theorem fallsBack_taken : ¬FallsBack (text "ann") (annsArgo.take 1) (CharArray.zero _) none
    ⟨none, CharArray.zero _, true⟩ none none := by
  intro hback
  have hvalue : (Prog.exec (portAnswers [] fun _ => bobsArgo2.drop 1)
      (findSecond (text "ann") (annsArgo.take 1) (some (CharArray.zero _)))).map
        (fun r => (r.2.listnum, r.2.secname.map fun a => cstr a.val)) =
      some (-1, some (text "argo2")) := by
    decide +kernel
  obtain ⟨⟨h, s⟩, hexec, hresult⟩ := Option.map_eq_some_iff.mp hvalue
  obtain ⟨hlistnum, hname⟩ := Prod.mk.inj hresult
  obtain ⟨-, -, a, -, -, ha, hsame, -⟩ := hback h s (Prog.runs_of_exec hexec) hlistnum
  rw [ha, Option.map_some, hsame] at hname
  exact absurd hname (by decide)

end FallBack

end XinuConsole.MakeConnection
