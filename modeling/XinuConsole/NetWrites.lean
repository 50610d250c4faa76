import XinuConsole.Keyboard

/-!
Short and failing writes to the network in `flush2net` of `src/xinu-console.c`.

Every write of data is checked, the write of a break in `handlebreak` is not.
`meaning` is what a chunk stands for: its bytes, and a break for each letter `b`
that command mode reads.
-/

namespace XinuConsole.Console

open Lib Connectto

/-! ### Command mode -/

/-- Neither a write nor the letter of a break. -/
def Call.Quiet : Call → Prop
  | .write _ _ _ => False
  | .echo ch => ch ≠ 98
  | _ => True

/-- The break that `handlebreak` sends, with the result of its write. -/
def breakCalls (devout rv : ℤ) : List Call := [.echo 98, .write devout (text "\\b") rv]

/-- How command mode ends: with a break or without one. -/
def ending (devout : ℤ) (breaks : Bool) (rv : ℤ) : List Call :=
  if breaks then breakCalls devout rv else []

section Command

variable (o : Outside) (devout : ℤ)

/-- Reading a file name does not look at the calls. -/
theorem getFilename_calls (last : List Byte) (env : Option (List Byte)) (defFile : List Byte)
    (s : State) (calls : List Call) :
    getFilename last env defFile { s with calls := calls } =
      ((getFilename last env defFile s).1, { s.lineRead with calls := calls }) := by
  obtain ⟨name, hname, -⟩ := getFilename_eq last env defFile { s with calls := calls }
  have hline : { s with calls := calls }.lineRead = { s.lineRead with calls := calls } := rfl
  have hsame : (getFilename last env defFile { s with calls := calls }).1 =
      (getFilename last env defFile s).1 := by
    rw [getFilename, getFilename, getInputString, getInputString]
    by_cases hline : (fgets (maxFilename - 2) s.stdio s.pieces).1 = []
    · rw [if_pos hline, if_pos hline]
    rw [if_neg hline, if_neg hline]
    dsimp only
    generalize (if (cstr (fgets (maxFilename - 2) s.stdio s.pieces).1).getLast? = some 10 then
      (cstr (fgets (maxFilename - 2) s.stdio s.pieces).1).dropLast
      else cstr (fgets (maxFilename - 2) s.stdio s.pieces).1) = typed
    cases typed with
    | nil =>
        by_cases hpreset : presetFilename last env defFile = []
        · simp only [if_pos hpreset]
        · simp only [if_neg hpreset]
    | cons b typed => rfl
  rw [← hsame, hname, hline]

theorem act_quiet {ch : Byte} (hch : ch ≠ 98) (status devout rv : ℤ) :
    act status devout rv ch = act status devout 0 ch ∧
      ∀ c ∈ (act status devout rv ch).effects, Call.Quiet c := by
  have hpower : ∀ cls ext other, ∀ c ∈ (power status cls ext other).effects, Call.Quiet c := by
    intro cls ext other c hc
    rw [List.mem_singleton.mp hc]
    trivial
  simp only [act, if_neg hch]
  refine ⟨trivial, ?_⟩
  split
  · exact hpower _ _ _
  split
  · simp
  split
  · simp
  split
  · simp [Call.Quiet]
  split
  · exact hpower _ _ _
  split
  · exact hpower _ _ _
  split
  · exact hpower _ _ _
  · simp

/-- What a command does, but for the break, does not depend on the writes. -/
theorem command_quiet {ch : Byte} (hch : ch ≠ 98) (s : State) :
    ∃ (res : Option ℤ) (t : State) (more : List Call), (∀ c ∈ more, Call.Quiet c) ∧
      ∀ (write : ℕ → ℕ → ℤ) (calls : List Call), programs calls = programs s.calls →
        command { o with write := write } devout ch { s with calls := calls } =
          (res, { t with calls := calls ++ more }) := by
  have hrun : ∀ program status, ∀ c ∈ [Call.run program status], Call.Quiet c := by
    intro program status c hc
    rw [List.mem_singleton.mp hc]
    trivial
  by_cases hasks : AsksFile ch
  · rcases hasks with rfl | rfl
    · have hcommand : ∀ (write : ℕ → ℕ → ℤ) (calls : List Call),
          command { o with write := write } devout 100 { s with calls := calls } =
            ((if (subconnect o "DOWNLOAD" "-dl" true { s with calls := calls }).1 = 0 then some 1
              else none), (subconnect o "DOWNLOAD" "-dl" true { s with calls := calls }).2) :=
        fun _ _ => rfl
      have hget := getFilename_calls s.lastDownload o.envFilename (text "a.out") s
      rcases hname : (getFilename s.lastDownload o.envFilename (text "a.out") s).1 with _ | file
      · refine ⟨none, s.lineRead, [], by simp, fun write calls _ => ?_⟩
        rw [hcommand, subconnect, if_pos rfl, hget, hname, List.append_nil]
        rfl
      · let status := o.status (programs s.calls).length
        refine ⟨if status = 0 then some 1 else none, { s.lineRead with lastDownload := file },
          _, hrun (.subconnect (text "DOWNLOAD") (text "-dl") (some file)) status,
          fun write calls hcalls => ?_⟩
        rw [hcommand, subconnect, if_pos rfl, hget, hname]
        simp only [State.issueRun, hcalls]
        rfl
    · have hcommand : ∀ (write : ℕ → ℕ → ℤ) (calls : List Call),
          command { o with write := write } devout 115 { s with calls := calls } =
            (none, (spawnconnect o { s with calls := calls }).2) := fun _ _ => rfl
      have hget := getFilename_calls s.lastSpawn none (text "a.out") s
      rcases hname : (getFilename s.lastSpawn none (text "a.out") s).1 with _ | file
      · refine ⟨none, s.lineRead, [], by simp, fun write calls _ => ?_⟩
        rw [hcommand, spawnconnect, hget, hname, List.append_nil]
      · refine ⟨none, { s.lineRead with lastSpawn := file }, _,
          hrun (.spawn file) (o.status (programs s.calls).length), fun write calls hcalls => ?_⟩
        rw [hcommand, spawnconnect, hget, hname]
        simp only [State.issueRun, hcalls]
  · refine ⟨(act (o.status (programs s.calls).length) devout 0 ch).result, s,
      (act (o.status (programs s.calls).length) devout 0 ch).effects,
      (act_quiet hch _ devout 0).2, fun write calls hcalls => ?_⟩
    rw [command_act { o with write := write } devout hasks, hcalls,
      (act_quiet hch _ devout (write calls.length 2)).1]

theorem getInput_calls (s : State) (calls : List Call) :
    getInput { s with calls := calls } =
      ((getInput s).1, { (getInput s).2 with calls := calls }) ∧ (getInput s).2.calls = s.calls := by
  unfold getInput
  dsimp only
  split
  · exact ⟨rfl, rfl⟩
  · split <;> exact ⟨rfl, rfl⟩

section Rounds

variable {o devout} {s s₁ s₂ : State} {ch : Byte}

theorem handlebreak_none (h : getInput s = (none, s₁)) : handlebreak o devout s = (0, s₁) := by
  rw [handlebreak]
  split
  · next h' => rw [(Prod.mk.inj (h.symm.trans h')).2]
  · next h' => exact absurd (Prod.mk.inj (h.symm.trans h')).1 (by simp)

theorem handlebreak_some (h : getInput s = (some ch, s₁)) :
    handlebreak o devout s =
      match command o devout (ch &&& 0x7F) (s₁.echo (ch &&& 0x7F)) with
      | (some rv, s₂) => (rv, s₂)
      | (none, s₂) => handlebreak o devout s₂ := by
  rw [handlebreak]
  split
  · next h' => exact absurd (Prod.mk.inj (h.symm.trans h')).1 (by simp)
  · next h' =>
    obtain ⟨hch, rfl⟩ := Prod.mk.inj (h.symm.trans h')
    obtain rfl := Option.some.inj hch
    split <;> simp_all

end Rounds

/-- **Command mode** does the same whatever the writes return, and it writes nothing
but the break that it may end with. -/
theorem handlebreak_cases (s : State) :
    ∃ (rv : ℤ) (t : State) (more : List Call) (breaks : Bool), (∀ c ∈ more, Call.Quiet c) ∧
      ∀ (write : ℕ → ℕ → ℤ) (calls : List Call), programs calls = programs s.calls →
        handlebreak { o with write := write } devout { s with calls := calls } =
          (rv, { t with
            calls := calls ++ more ++
              ending devout breaks (write (calls.length + more.length + 1) 2) }) := by
  induction hn : s.left using Nat.strong_induction_on generalizing s with
  | _ n ih =>
      rcases hin : getInput s with ⟨_ | ch, s₁⟩
      · refine ⟨0, s₁, [], false, by simp, fun write calls _ => ?_⟩
        obtain ⟨hget, -⟩ := getInput_calls s calls
        rw [hin] at hget
        rw [handlebreak_none hget]
        simp [ending]
      obtain ⟨-, hcalls₁⟩ := getInput_calls s []
      have hleft := left_getInput hin
      rw [hin] at hcalls₁
      have hround : ∀ (write : ℕ → ℕ → ℤ) (calls : List Call),
          handlebreak { o with write := write } devout { s with calls := calls } =
            match command { o with write := write } devout (ch &&& 0x7F)
              { s₁ with calls := calls ++ [.echo (ch &&& 0x7F)] } with
            | (some rv, s₂) => (rv, s₂)
            | (none, s₂) => handlebreak { o with write := write } devout s₂ := by
        intro write calls
        obtain ⟨hget, -⟩ := getInput_calls s calls
        rw [hin] at hget
        exact handlebreak_some hget
      generalize ch &&& 0x7F = c at hround
      by_cases hc : c = 98
      · -- the break ends command mode
        subst hc
        refine ⟨1, s₁, [], true, by simp, fun write calls _ => ?_⟩
        rw [hround, command_act _ _ (by decide), List.append_nil]
        simp [act, Act.result, ending, breakCalls]
      have hprograms : ∀ calls, programs (calls ++ [.echo c]) = programs calls := fun calls => by
        rw [programs_append]
        exact List.append_nil _
      obtain ⟨res, t, more, hquiet, hcommand⟩ := command_quiet o devout hc (s₁.echo c)
      have hquiet' : ∀ c' ∈ Call.echo c :: more, Call.Quiet c' :=
        List.forall_mem_cons.mpr ⟨hc, hquiet⟩
      have hstep : ∀ (write : ℕ → ℕ → ℤ) (calls : List Call), programs calls = programs s.calls →
          command { o with write := write } devout c { s₁ with calls := calls ++ [.echo c] } =
            (res, { t with calls := calls ++ .echo c :: more }) := by
        intro write calls hcalls
        have h := hcommand write (calls ++ [.echo c]) (by
          rw [hprograms, hcalls, ← hcalls₁]
          exact (hprograms s₁.calls).symm)
        rw [List.append_assoc] at h
        exact h
      cases res with
      | some rv =>
          refine ⟨rv, t, .echo c :: more, false, hquiet', fun write calls hcalls => ?_⟩
          rw [hround, hstep write calls hcalls]
          simp [ending]
      | none =>
          let s₂ : State := { t with calls := s.calls ++ Call.echo c :: more }
          have hless : s₂.left < n := by
            have hle := (left_command o devout c
              { s₁ with calls := s.calls ++ [Call.echo c] }).1
            rw [hstep o.write s.calls rfl] at hle
            have hle' : s₂.left ≤ s₁.left := hle
            omega
          obtain ⟨rv, t', more', breaks, hquiet'', hrest⟩ := ih _ hless s₂ rfl
          refine ⟨rv, t', .echo c :: more ++ more', breaks, ?_, fun write calls hcalls => ?_⟩
          · intro c' hc'
            rcases List.mem_append.mp hc' with hc' | hc'
            · exact hquiet' c' hc'
            · exact hquiet'' c' hc'
          · have h := hrest write (calls ++ Call.echo c :: more) (by
              rw [programs_append, programs_append, hcalls])
            rw [List.append_assoc calls, List.length_append, Nat.add_assoc calls.length,
              ← List.length_append] at h
            rw [hround, hstep write calls hcalls]
            exact h

/-! ### What a chunk means -/

/-- The breaks that are asked for, one for each letter `b`. -/
def breaksOf (calls : List Call) : List (Item Byte) :=
  List.replicate ((commands calls).count 98) .signal

/-- What is left of a chunk means: data for its bytes, and behind an escape
character what command mode reads; nothing if command mode ends the session. -/
def meaning (s : State) : Option (List (Item Byte)) :=
  if _h : s.curr < s.buf.length then
    let ch := s.buf[s.curr]
    let read := { s with curr := s.curr + 1 }
    if ch = escCharacter then
      let broken := handlebreak { o with write := fun _ n => n } devout read
      if broken.1 ≤ 0 then none
      else (meaning broken.2).map (breaksOf (broken.2.calls.drop read.calls.length) ++ ·)
    else (meaning read).map (.data ch :: ·)
  else some []
termination_by s.buf.length - s.curr
decreasing_by
  · obtain ⟨hbuf, hcurr⟩ := handlebreak_frame { o with write := fun _ n => n } devout read
    have hless : ∀ s' : State, s'.buf = s.buf → s.curr + 1 ≤ s'.curr →
        s'.buf.length - s'.curr < s.buf.length - s.curr := by
      intro s' hbuf hcurr
      rw [hbuf]
      omega
    exact hless _ hbuf hcurr
  · omega

theorem breaksOf_quiet {more : List Call} (hquiet : ∀ c ∈ more, Call.Quiet c) (rv : ℤ)
    (breaks : Bool) :
    breaksOf (more ++ ending devout breaks rv) = if breaks then [.signal] else [] := by
  have hnone : (commands more).count 98 = 0 := by
    rw [List.count_eq_zero, commands, List.mem_filterMap]
    rintro ⟨c, hc, hb⟩
    cases c with
    | echo ch => exact hquiet _ hc (Option.some.inj hb)
    | write | run | suspend => exact absurd hb (by simp)
  rw [breaksOf, commands, List.filterMap_append, List.count_append]
  rw [commands] at hnone
  rw [hnone]
  cases breaks <;> rfl

theorem programs_ending (calls : List Call) (breaks : Bool) (rv : ℤ) :
    programs (calls ++ ending devout breaks rv) = programs calls := by
  rw [programs_append]
  cases breaks <;> exact List.append_nil _

/-- The effect of command mode on what a chunk means. -/
theorem meaning_escape {s : State} (hlt : s.curr < s.buf.length)
    (hesc : s.buf[s.curr] = escCharacter) :
    ∃ (rv : ℤ) (t : State) (more : List Call) (breaks : Bool),
      (∀ c ∈ more, Call.Quiet c) ∧ t.buf = s.buf ∧ s.curr < t.curr ∧ t.curr ≤ t.buf.length ∧
      ∀ (write : ℕ → ℕ → ℤ) (calls : List Call), programs calls = programs s.calls →
        handlebreak { o with write := write } devout { s with curr := s.curr + 1, calls := calls } =
          (rv, { t with
            calls := calls ++ more ++
              ending devout breaks (write (calls.length + more.length + 1) 2) }) ∧
        meaning o devout { s with calls := calls } =
          if rv ≤ 0 then none
          else (meaning o devout { t with
            calls := calls ++ more ++ ending devout breaks 2 }).map
              ((if breaks then [.signal] else []) ++ ·) := by
  obtain ⟨rv, t, more, breaks, hquiet, h⟩ :=
    handlebreak_cases o devout { s with curr := s.curr + 1 }
  obtain ⟨hbuf, hcurr⟩ := handlebreak_frame o devout { s with curr := s.curr + 1 }
  have hend := handlebreak_curr_le devout (o := o) (s := { s with curr := s.curr + 1 }) hlt
  rw [h o.write s.calls rfl] at hbuf hcurr hend
  refine ⟨rv, t, more, breaks, hquiet, hbuf, hcurr, hend, fun write calls hcalls =>
    ⟨h write calls hcalls, ?_⟩⟩
  have hbroken := h (fun _ n => n) calls hcalls
  have hdrop : ((calls ++ more ++ ending devout breaks 2).drop calls.length) =
      more ++ ending devout breaks 2 := by
    rw [List.append_assoc, List.drop_left]
  rw [meaning, dif_pos hlt]
  simp only [hesc, if_true, hbroken, Nat.cast_ofNat, hdrop, breaksOf_quiet devout hquiet]

/-- What a chunk means does not depend on the writes made before. -/
theorem meaning_calls (s : State) (calls : List Call) (hcalls : programs calls = programs s.calls) :
    meaning o devout { s with calls := calls } = meaning o devout s := by
  induction hn : s.buf.length - s.curr using Nat.strong_induction_on generalizing s calls with
  | _ n ih =>
      by_cases hlt : s.curr < s.buf.length
      · by_cases hesc : s.buf[s.curr] = escCharacter
        · obtain ⟨rv, t, more, breaks, -, hbuf, hcurr, -, h⟩ := meaning_escape o devout hlt hesc
          obtain ⟨-, hleft⟩ := h o.write calls hcalls
          obtain ⟨-, hright⟩ := h o.write s.calls rfl
          have hless : t.buf.length - t.curr < n := by
            rw [hbuf]
            omega
          have hsame := ih _ hless { t with calls := s.calls ++ more ++ ending devout breaks 2 }
            (calls ++ more ++ ending devout breaks 2) (by
              rw [programs_ending, programs_ending, programs_append, programs_append, hcalls]) rfl
          rw [hleft, hsame]
          exact hright.symm
        · have hless : s.buf.length - (s.curr + 1) < n := by omega
          have hsame := ih _ hless { s with curr := s.curr + 1 } calls hcalls rfl
          rw [meaning, meaning, dif_pos hlt, dif_pos hlt]
          simp only [if_neg hesc, hsame]
      · rw [meaning, meaning, dif_neg hlt, dif_neg hlt]

end Command

/-! ### What the network accepted -/

theorem sentOn_quiet {fd : ℤ} {calls : List Call} (hquiet : ∀ c ∈ calls, Call.Quiet c) :
    sentOn fd calls = [] := by
  rw [sentOn, List.flatMap_eq_nil_iff]
  intro c hc
  cases c with
  | write => exact absurd (hquiet _ hc) id
  | echo | run | suspend => rfl

/-- The calls `more` delivered the bytes `front` and the code of `is`, but for the
breaks, of which `ns` says how much. -/
structure Delivered (devout : ℤ) (front : List Byte) (is : List (Item Byte)) (more : List Call)
    (ns : List ℕ) : Prop where
  count : ns.length = is.count .signal
  sent : sentOn devout more = front ++ streamCode.encodeShort is ns
  elsewhere : ∀ fd, fd ≠ devout → sentOn fd more = []
  breaks : ∀ n ∈ ns, ∃ rv, .write devout (text "\\b") rv ∈ more ∧ rv.toNat = n
  others : ∀ rv, .write devout (text "\\b") rv ∈ more → rv.toNat ∈ ns ∨ 2 ≤ rv

namespace Delivered

variable {devout : ℤ} {front : List Byte} {is : List (Item Byte)} {more : List Call} {ns : List ℕ}

theorem nil : Delivered devout [] [] [] [] :=
  ⟨rfl, rfl, fun _ _ => rfl, fun _ h => absurd h List.not_mem_nil,
    fun _ h => absurd h List.not_mem_nil⟩

/-- A write of data that the device took. -/
theorem write (h : Delivered devout front is more ns) {bytes : List Byte} {rv : ℤ}
    (hrv : bytes.length ≤ rv) :
    Delivered devout (bytes ++ front) is (.write devout bytes rv :: more) ns where
  count := h.count
  sent := by
    rw [sentOn, List.flatMap_cons, ← sentOn, h.sent, Call.sentOn, if_pos rfl,
      List.take_of_length_le (by omega), List.append_assoc]
  elsewhere fd hfd := by
    rw [sentOn, List.flatMap_cons, ← sentOn, h.elsewhere fd hfd, Call.sentOn, if_neg hfd.symm]
    rfl
  breaks n hn := by
    obtain ⟨rv', hmem, hn⟩ := h.breaks n hn
    exact ⟨rv', List.mem_cons_of_mem _ hmem, hn⟩
  others rv' hmem := by
    rcases List.mem_cons.mp hmem with heq | hmem
    · obtain ⟨-, rfl, rfl⟩ := Call.write.inj heq
      exact .inr hrv
    · exact h.others rv' hmem

theorem quiet (h : Delivered devout [] is more ns) {before : List Call}
    (hquiet : ∀ c ∈ before, Call.Quiet c) : Delivered devout [] is (before ++ more) ns where
  count := h.count
  sent := by
    rw [sentOn_append, sentOn_quiet hquiet]
    exact h.sent
  elsewhere fd hfd := by
    rw [sentOn_append, sentOn_quiet hquiet]
    exact h.elsewhere fd hfd
  breaks n hn := by
    obtain ⟨rv, hmem, hn⟩ := h.breaks n hn
    exact ⟨rv, List.mem_append_right _ hmem, hn⟩
  others rv hmem := by
    rcases List.mem_append.mp hmem with hmem | hmem
    · exact absurd (hquiet _ hmem) id
    · exact h.others rv hmem

theorem signal (h : Delivered devout [] is more ns) (rv : ℤ) :
    Delivered devout [] (.signal :: is) (breakCalls devout rv ++ more) (rv.toNat :: ns) where
  count := by simp [h.count]
  sent := by
    rw [sentOn_append, h.sent]
    simp [breakCalls, sentOn, Call.sentOn, EscapeCode.encodeShort, streamCode, text]
  elsewhere fd hfd := by
    rw [sentOn_append, h.elsewhere fd hfd]
    simp [breakCalls, sentOn, Call.sentOn, hfd.symm]
  breaks n hn := by
    rcases List.mem_cons.mp hn with rfl | hn
    · exact ⟨rv, by simp [breakCalls], rfl⟩
    · obtain ⟨rv', hmem, hn⟩ := h.breaks n hn
      exact ⟨rv', List.mem_append_right _ hmem, hn⟩
  others rv' hmem := by
    rcases List.mem_append.mp hmem with hmem | hmem
    · obtain rfl : rv' = rv := by simpa [breakCalls] using hmem
      exact .inl List.mem_cons_self
    · exact (h.others rv' hmem).imp_left (List.mem_cons_of_mem _)

theorem data {b : Byte} (hb : b ≠ 92) (h : Delivered devout (front ++ [b]) is more ns) :
    Delivered devout front (.data b :: is) more ns := by
  have hcode : streamCode.encode [b] = [b] :=
    streamCode.encode_of_not_mem fun hmem => hb (List.mem_singleton.mp hmem).symm
  refine ⟨by simpa using h.count, ?_, h.elsewhere, h.breaks, h.others⟩
  rw [h.sent, EscapeCode.encodeShort, hcode, List.append_assoc]

theorem backslash (h : Delivered devout (front ++ [92] ++ [92]) is more ns) :
    Delivered devout front (.data 92 :: is) more ns := by
  refine ⟨by simpa using h.count, ?_, h.elsewhere, h.breaks, h.others⟩
  rw [h.sent, EscapeCode.encodeShort, List.append_assoc, List.append_assoc]
  rfl

/-- The whole code was accepted if and only if every write of a break was complete. -/
theorem whole_iff (h : Delivered devout [] is more ns) :
    sentOn devout more = streamCode.encodeItems is ↔
      ∀ rv, .write devout (text "\\b") rv ∈ more → 2 ≤ rv := by
  rw [h.sent, List.nil_append, streamCode.encodeShort_eq_iff h.count]
  refine ⟨fun hall rv hmem => ?_, fun hall n hn => ?_⟩
  · rcases h.others rv hmem with hn | hrv
    · have := hall _ hn
      omega
    · exact hrv
  · obtain ⟨rv, hmem, rfl⟩ := h.breaks n hn
    have := hall rv hmem
    omega

end Delivered

section Loop

variable (o : Outside) (devout : ℤ)

/-- The calls `w` are writes of `bytes` that the device took. -/
def Taken (bytes : List Byte) (w : List Call) : Prop :=
  programs w = [] ∧ ∀ {front is more ns}, Delivered devout front is more ns →
    Delivered devout (bytes ++ front) is (w ++ more) ns

theorem taken_write {bytes : List Byte} {rv : ℤ} (hrv : bytes.length ≤ rv) :
    Taken devout bytes [.write devout bytes rv] := ⟨rfl, fun h => h.write hrv⟩

theorem sendRange_taken {s : State} {start clen : ℕ} (hclen : start + clen ≤ s.buf.length)
    (hok : ¬(s.sendRange o devout start clen).1 = false) :
    ∃ w, (s.sendRange o devout start clen).2 = { s with calls := s.calls ++ w } ∧
      Taken devout ((s.buf.drop start).take clen) w := by
  refine ⟨_, rfl, taken_write devout ?_⟩
  have hlen : ((s.buf.drop start).take clen).length = clen := by
    rw [List.length_take, List.length_drop]
    omega
  simpa [State.sendRange, State.issueWrite, hlen] using hok

theorem sendPending_taken {s : State} {start clen : ℕ} (hclen : start + clen ≤ s.buf.length)
    (hok : ¬(s.sendPending o devout start clen).1 = false) :
    ∃ w, (s.sendPending o devout start clen).2 = { s with calls := s.calls ++ w } ∧
      Taken devout ((s.buf.drop start).take clen) w := by
  rw [State.sendPending] at hok ⊢
  split at hok
  · next hpos =>
    rw [if_pos hpos]
    exact sendRange_taken o devout hclen hok
  · next hpos =>
    obtain rfl : clen = 0 := by omega
    rw [if_neg hpos, List.take_zero]
    exact ⟨[], by simp, rfl, fun h => h⟩

theorem meaning_data {s : State} (hlt : s.curr < s.buf.length)
    (hesc : ¬s.buf[s.curr] = escCharacter) :
    meaning o devout s =
      (meaning o devout { s with curr := s.curr + 1 }).map (.data s.buf[s.curr] :: ·) := by
  rw [meaning, dif_pos hlt]
  exact if_neg hesc

theorem meaning_end {s : State} (hend : ¬s.curr < s.buf.length) : meaning o devout s = some [] := by
  rw [meaning, dif_neg hend]

theorem meaning_taken {bytes : List Byte} {w : List Call} (hw : Taken devout bytes w) (s : State) :
    meaning o devout { s with calls := s.calls ++ w } = meaning o devout s := by
  apply meaning_calls
  rw [programs_append, hw.1, List.append_nil]

/-- **The loop** that reaches the end of the chunk sent what the chunk means. -/
theorem flush2netLoop_delivered {start : ℕ} {s : State} (hstart : start ≤ s.curr)
    (hcurr : s.curr ≤ s.buf.length) (hrv : (flush2netLoop o devout start s).1 = s.buf.length) :
    ∃ is more ns, meaning o devout s = some is ∧
      (flush2netLoop o devout start s).2.calls = s.calls ++ more ∧
      Delivered devout (s.pending start) is more ns := by
  fun_induction flush2netLoop o devout start s with
  | case1 start s hlt | case2 start s hlt | case4 start s hlt =>
      simp only at hrv
      omega
  | case3 start s hlt ch read hch sent hok doubled hdoubled ih =>
      obtain ⟨w, hsent, hw⟩ := sendRange_taken o devout
        (show start + (read.curr - start) ≤ read.buf.length by simp only [read]; omega) hok
      have hrange : (read.buf.drop start).take (read.curr - start) = s.pending start ++ [92] := by
        rw [← hch]
        exact pending_advance hstart hlt
      have hw₂ : Taken devout [92] [.write devout [92] doubled.1] :=
        taken_write devout (not_not.mp hdoubled).ge
      have hstate : doubled.2 =
          { read with calls := read.calls ++ w ++ [.write devout [92] doubled.1] } := by
        have hsent : sent.2 = _ := hsent
        show ({ sent.2 with calls := sent.2.calls ++ [.write devout [92] doubled.1] } : State) = _
        rw [hsent]
      have hframe : doubled.2.buf = s.buf ∧ doubled.2.curr = s.curr + 1 := ⟨rfl, rfl⟩
      obtain ⟨is, more, ns, hmeaning, hcalls, hdel⟩ := ih le_rfl (by
        rw [hframe.1, hframe.2]
        exact hlt) hrv
      refine ⟨.data ch :: is, w ++ [.write devout [92] doubled.1] ++ more, ns, ?_, ?_, ?_⟩
      · have hread := meaning_taken o devout hw₂ { read with calls := read.calls ++ w }
        rw [hstate] at hmeaning
        rw [meaning_data o devout hlt (by rw [show s.buf[s.curr] = 92 from hch]; decide),
          ← meaning_taken o devout hw read, ← hread, hmeaning]
        rfl
      · rw [hcalls, hstate]
        simp [read]
      · rw [pending_self] at hdel
        have h := hw.2 (hw₂.2 hdel)
        rw [hrange, List.append_nil] at h
        rw [List.append_assoc, hch]
        exact h.backslash
  | case5 start s hlt ch read hch hesc sent _ broken hle => omega
  | case6 start s hlt ch read hch hesc sent hok broken hgo ih =>
      obtain ⟨w, hsent, hw⟩ := sendPending_taken o devout
        (show start + (read.curr - start - 1) ≤ read.buf.length by simp only [read]; omega) hok
      have hrange : (read.buf.drop start).take (read.curr - start - 1) = s.pending start := by
        simp only [read, State.pending]
        congr 1
        omega
      obtain ⟨rv, t, quiet, breaks, hquiet, hbuf, -, hend, hescape⟩ :=
        meaning_escape o devout hlt hesc
      obtain ⟨hhandle, hmeans⟩ := hescape o.write (s.calls ++ w) (by
        rw [programs_append, hw.1, List.append_nil])
      generalize o.write ((s.calls ++ w).length + quiet.length + 1) 2 = sent₂ at hhandle
      have hbroken : broken = _ := (congrArg (handlebreak o devout) hsent).trans hhandle
      have hlast : broken.2.curr ≤ broken.2.buf.length := by
        rw [hbroken]
        exact hend
      have hlen : broken.2.buf.length = s.buf.length := by
        rw [hbroken]
        exact congrArg List.length hbuf
      obtain ⟨is, more, ns, hmeaning, hcalls, hdel⟩ := ih le_rfl hlast (hrv.trans (by rw [hlen]))
      have hrest : meaning o devout { t with
          calls := s.calls ++ w ++ quiet ++ ending devout breaks 2 } = some is := by
        rw [← hmeaning, hbroken]
        exact meaning_calls o devout
          { t with calls := s.calls ++ w ++ quiet ++ ending devout breaks sent₂ } _ (by
            rw [programs_ending, programs_ending])
      have hgo' : ¬rv ≤ 0 := by rwa [hbroken] at hgo
      rw [hrest, if_neg hgo', meaning_taken o devout hw s] at hmeans
      rw [pending_self] at hdel
      rw [hcalls, hbroken]
      cases breaks with
      | false =>
          have h := hw.2 (hdel.quiet hquiet)
          rw [hrange, List.append_nil] at h
          exact ⟨_, _, ns, hmeans, by simp [ending], h⟩
      | true =>
          have h := hw.2 ((hdel.signal sent₂).quiet hquiet)
          rw [hrange, List.append_nil] at h
          exact ⟨_, _, _, hmeans, by simp [ending], h⟩
  | case7 start s hlt ch read hch hesc ih =>
      obtain ⟨is, more, ns, hmeaning, hcalls, hdel⟩ := ih (Nat.le_succ_of_le hstart) hlt hrv
      have hread : read.pending start = s.pending start ++ [ch] := pending_advance hstart hlt
      rw [hread] at hdel
      refine ⟨.data ch :: is, more, ns, ?_, hcalls, hdel.data hch⟩
      rw [meaning_data o devout hlt hesc, hmeaning]
      rfl
  | case8 start s hend hne => simp only at hrv; omega
  | case9 start s hend hne sent hok =>
      obtain ⟨w, hsent, hw⟩ := sendRange_taken o devout
        (show start + (s.curr - start) ≤ s.buf.length by omega) hok
      have hdel := hw.2 Delivered.nil
      rw [List.append_nil, List.append_nil] at hdel
      exact ⟨[], w, [], meaning_end o devout hend, congrArg State.calls hsent, hdel⟩
  | case10 start s hend heq =>
      obtain rfl : s.curr = start := not_not.mp heq
      rw [pending_self]
      exact ⟨[], [], [], meaning_end o devout hend, (List.append_nil _).symm, Delivered.nil⟩

/-! ### A device that cuts the breaks -/

theorem sendRange_whole {s : State} {start clen : ℕ} (hclen : start + clen ≤ s.buf.length)
    (hw : o.write s.calls.length clen = clen) :
    s.sendRange o devout start clen =
      (true, { s with calls := s.calls ++ [.write devout ((s.buf.drop start).take clen) clen] }) := by
  have hlen : ((s.buf.drop start).take clen).length = clen := by
    rw [List.length_take, List.length_drop]
    omega
  simp [State.sendRange, State.issueWrite, hlen, hw]

/-- What is pending and sent whole. -/
def whole (bytes : List Byte) : List Call :=
  if bytes = [] then [] else [.write devout bytes bytes.length]

theorem programs_whole (bytes : List Byte) : programs (whole devout bytes) = [] := by
  rw [whole]
  split <;> rfl

theorem sendPending_whole {s : State} {start clen : ℕ} (hclen : start + clen ≤ s.buf.length)
    (hw : 0 < clen → o.write s.calls.length clen = clen) :
    s.sendPending o devout start clen =
      (true, { s with calls := s.calls ++ whole devout ((s.buf.drop start).take clen) }) := by
  have hlen : ((s.buf.drop start).take clen).length = clen := by
    rw [List.length_take, List.length_drop]
    omega
  by_cases hpos : 0 < clen
  · have hne : (s.buf.drop start).take clen ≠ [] := List.length_pos_iff.mp (by omega)
    rw [State.sendPending, if_pos hpos, sendRange_whole o devout hclen (hw hpos),
      whole, if_neg hne, hlen]
  · obtain rfl : clen = 0 := by omega
    simp [State.sendPending, whole]

/-- What a device answers that leaves one byte over in the calls `B`. -/
def cutting (B : List ℕ) (k n : ℕ) : ℤ := if k ∈ B then n - 1 else n

theorem cutting_cons {B : List ℕ} {k last : ℕ} (h : k ≠ last) (n : ℕ) :
    cutting (last :: B) k n = cutting B k n := by
  simp [cutting, h]

/-- On a device that cuts the breaks of the calls `B` the loop takes the chunk, which
means `is`. -/
structure Cut (start : ℕ) (s : State) (is : List (Item Byte)) (B : List ℕ) : Prop where
  later : ∀ k ∈ B, s.calls.length ≤ k
  signal : .signal ∈ is → B ≠ []
  run : ∀ write : ℕ → ℕ → ℤ, (∀ k n, s.calls.length ≤ k → write k n = cutting B k n) →
    let r := flush2netLoop { o with write := write } devout start s
    r.1 = s.buf.length ∧
      (B ≠ [] → .write devout (text "\\b") 1 ∈ r.2.calls.drop s.calls.length)

/-- The loop at an escape character that does not end the session. -/
theorem flush2netLoop_escape {start : ℕ} {s sent t : State} (hlt : s.curr < s.buf.length)
    (hesc : s.buf[s.curr] = escCharacter)
    (hsend : ({ s with curr := s.curr + 1 } : State).sendPending o devout start
      (s.curr + 1 - start - 1) = (true, sent))
    {rv : ℤ} (hbroken : handlebreak o devout sent = (rv, t)) (hgo : ¬rv ≤ 0) :
    flush2netLoop o devout start s = flush2netLoop o devout t.curr t := by
  have hch : ¬s.buf[s.curr] = 92 := by
    rw [hesc]
    decide
  rw [flush2netLoop, dif_pos hlt]
  simp only [if_neg hch, if_pos hesc]
  rw [hsend]
  simp only [Bool.true_eq_false, if_false, hbroken, hgo]

theorem cut_end {start : ℕ} {s : State} (hstart : start ≤ s.curr) (hend : s.curr = s.buf.length) :
    Cut o devout start s [] [] where
  later := by simp
  signal := by simp
  run write hwrite := by
    rw [flush2netLoop, dif_neg hend.not_lt]
    split
    · have hw : write s.calls.length (s.curr - start) = (s.curr - start : ℕ) := by
        rw [hwrite _ _ le_rfl, cutting, if_neg List.not_mem_nil]
      rw [sendRange_whole { o with write := write } devout (by omega) hw]
      exact ⟨rfl, fun h => absurd rfl h⟩
    · exact ⟨rfl, fun h => absurd rfl h⟩

/-- The device took a range up to a backslash and the second one. -/
def State.doubled (s : State) (start : ℕ) : State :=
  { s with
    curr := s.curr + 1
    calls := s.calls ++
      [.write devout ((s.buf.drop start).take (s.curr + 1 - start)) (s.curr + 1 - start : ℕ)] ++
      [.write devout [92] 1] }

theorem cut_backslash {start : ℕ} {s : State} (hstart : start ≤ s.curr)
    (hlt : s.curr < s.buf.length) (hch : s.buf[s.curr] = 92) {is : List (Item Byte)} {B : List ℕ}
    (h : Cut o devout (s.curr + 1) (s.doubled devout start) is B) :
    Cut o devout start s (.data 92 :: is) B := by
  have hlen : (s.doubled devout start).calls.length = s.calls.length + 2 := by
    simp [State.doubled]
  have hlater := h.later
  rw [hlen] at hlater
  refine ⟨fun k hk => (Nat.le_add_right _ 2).trans (hlater k hk), by simpa using h.signal,
    fun write hwrite => ?_⟩
  have hw : ∀ k n, s.calls.length ≤ k → k < s.calls.length + 2 → write k n = n := by
    intro k n hk hk'
    rw [hwrite k n hk, cutting, if_neg fun hmem => absurd (hlater k hmem) (Nat.not_le.mpr hk')]
  let w : List Call :=
    [.write devout ((s.buf.drop start).take (s.curr + 1 - start)) (s.curr + 1 - start : ℕ)]
  have hsend : ({ s with curr := s.curr + 1 } : State).sendRange { o with write := write } devout
      start (s.curr + 1 - start) =
        (true, { s with curr := s.curr + 1, calls := s.calls ++ w }) := by
    apply sendRange_whole
    · show start + (s.curr + 1 - start) ≤ s.buf.length
      omega
    · exact hw _ _ le_rfl (Nat.lt_add_of_pos_right two_pos)
  have hdouble : ({ s with curr := s.curr + 1, calls := s.calls ++ w } : State).issueWrite
      { o with write := write } devout [92] = (1, s.doubled devout start) := by
    have hone : write (s.calls ++ w).length 1 = 1 := hw _ _ (by simp) (by simp [w])
    simp only [State.issueWrite, List.length_singleton, hone]
    rfl
  have hloop : flush2netLoop { o with write := write } devout start s =
      flush2netLoop { o with write := write } devout (s.curr + 1) (s.doubled devout start) := by
    rw [flush2netLoop, dif_pos hlt]
    simp only [hch, if_true]
    rw [hsend]
    simp only [Bool.true_eq_false, if_false, hdouble, ne_eq, not_true]
    rfl
  have hrun := h.run write fun k n hk => hwrite k n (by omega)
  rw [hloop]
  exact ⟨hrun.1, fun hB => List.drop_subset_drop_left _ (by omega) (hrun.2 hB)⟩

theorem cut_data {start : ℕ} {s : State} (hlt : s.curr < s.buf.length)
    (hch : ¬s.buf[s.curr] = 92) (hesc : ¬s.buf[s.curr] = escCharacter) {is : List (Item Byte)}
    {B : List ℕ} (h : Cut o devout start { s with curr := s.curr + 1 } is B) :
    Cut o devout start s (.data s.buf[s.curr] :: is) B := by
  refine ⟨h.later, by simpa using h.signal, fun write hwrite => ?_⟩
  rw [flush2netLoop, dif_pos hlt]
  simp only [if_neg hch, if_neg hesc]
  exact h.run write hwrite

/-- The device took the bytes in front of an escape character; then command mode made
the calls `quiet` and ended. -/
def escaped (start : ℕ) (s t : State) (quiet : List Call) (breaks : Bool) : State :=
  { t with
    calls := s.calls ++ whole devout ((s.buf.drop start).take (s.curr - start)) ++ quiet ++
      ending devout breaks 1 }

theorem cut_escape {start : ℕ} {s : State} (hstart : start ≤ s.curr)
    (hlt : s.curr < s.buf.length) (hesc : s.buf[s.curr] = escCharacter) {rv : ℤ} (hgo : ¬rv ≤ 0)
    {t : State} (hbuf : t.buf = s.buf) {quiet : List Call} {breaks : Bool}
    (hescape : ∀ (write : ℕ → ℕ → ℤ) (calls : List Call), programs calls = programs s.calls →
      handlebreak { o with write := write } devout { s with curr := s.curr + 1, calls := calls } =
        (rv, { t with
          calls := calls ++ quiet ++
            ending devout breaks (write (calls.length + quiet.length + 1) 2) }))
    {is : List (Item Byte)} {B : List ℕ}
    (h : Cut o devout t.curr (escaped devout start s t quiet breaks) is B) :
    ∃ B', Cut o devout start s ((if breaks then [.signal] else []) ++ is) B' := by
  let w : List Call := whole devout ((s.buf.drop start).take (s.curr - start))
  let t₁ := escaped devout start s t quiet breaks
  -- the filter up to the end of command mode, when its break is cut
  have hloop : ∀ write : ℕ → ℕ → ℤ,
      (0 < s.curr - start → write s.calls.length (s.curr - start) = (s.curr - start : ℕ)) →
      (breaks = true → write ((s.calls ++ w).length + quiet.length + 1) 2 = 1) →
      flush2netLoop { o with write := write } devout start s =
        flush2netLoop { o with write := write } devout t₁.curr t₁ := by
    intro write hsent hcut
    have hclen : s.curr + 1 - start - 1 = s.curr - start := by omega
    have hsend : ({ s with curr := s.curr + 1 } : State).sendPending
      { o with write := write } devout
        start (s.curr + 1 - start - 1) =
          (true, { s with curr := s.curr + 1, calls := s.calls ++ w }) := by
      rw [hclen]
      apply sendPending_whole
      · show start + (s.curr - start) ≤ s.buf.length
        omega
      · exact hsent
    have hhandle : handlebreak { o with write := write } devout
        { s with curr := s.curr + 1, calls := s.calls ++ w } = (rv, t₁) := by
      rw [hescape write (s.calls ++ w) (by rw [programs_append, programs_whole, List.append_nil])]
      cases breaks with
      | false => rfl
      | true =>
          rw [hcut rfl]
          rfl
    exact flush2netLoop_escape { o with write := write } devout hlt hesc hsend hhandle hgo
  have hlen : t₁.calls.length =
      (s.calls ++ w).length + quiet.length + (ending devout breaks 1).length := by
    simp only [t₁, escaped, w, List.length_append]
  have hw : s.calls.length ≤ (s.calls ++ w).length := by simp
  have hpending : 0 < s.curr - start → s.calls.length < (s.calls ++ w).length := by
    intro hpos
    have hrange : (s.buf.drop start).take (s.curr - start) ≠ [] := by
      apply List.length_pos_iff.mp
      rw [List.length_take, List.length_drop]
      omega
    have hone : w.length = 1 := congrArg List.length (if_neg hrange)
    rw [List.length_append]
    omega
  have hlater : ∀ k ∈ B, t₁.calls.length ≤ k := h.later
  cases breaks with
  | false =>
      refine ⟨B, fun k hk => ?_, h.signal, fun write hwrite => ?_⟩
      · have := hlater k hk
        omega
      have hfirst : 0 < s.curr - start →
          write s.calls.length (s.curr - start) = (s.curr - start : ℕ) := by
        intro hpos
        have := hpending hpos
        rw [hwrite _ _ le_rfl, cutting, if_neg fun hmem => ?_]
        have := hlater _ hmem
        omega
      have hrun := h.run write fun k n hk => by
        have hk : t₁.calls.length ≤ k := hk
        exact hwrite k n (by omega)
      rw [hloop write hfirst (fun hb => absurd hb (by simp))]
      refine ⟨hrun.1.trans (congrArg _ (congrArg _ hbuf)), fun hB => ?_⟩
      exact List.drop_subset_drop_left _ (show s.calls.length ≤ t₁.calls.length by omega)
        (hrun.2 hB)
  | true =>
      have htwo : (ending devout true 1).length = 2 := rfl
      refine ⟨((s.calls ++ w).length + quiet.length + 1) :: B,
        List.forall_mem_cons.mpr ⟨by omega, fun k hk => ?_⟩, by simp, fun write hwrite => ?_⟩
      · have := hlater k hk
        omega
      have hfirst : 0 < s.curr - start →
          write s.calls.length (s.curr - start) = (s.curr - start : ℕ) := by
        intro hpos
        have := hpending hpos
        rw [hwrite _ _ le_rfl, cutting, if_neg fun hmem => ?_]
        rcases List.mem_cons.mp hmem with heq | hmem
        · omega
        · have := hlater _ hmem
          omega
      have hbreak : write ((s.calls ++ w).length + quiet.length + 1) 2 = 1 := by
        rw [hwrite _ _ (by omega), cutting, if_pos List.mem_cons_self]
        rfl
      have hrun := h.run write fun k n hk => by
        have hk : t₁.calls.length ≤ k := hk
        rw [hwrite k n (by omega)]
        exact cutting_cons (by omega) n
      have hkept : t₁.calls <+:
          (flush2netLoop { o with write := write } devout t₁.curr t₁).2.calls :=
        (kept_calls { o with write := write } devout t₁.calls).through_loop (List.prefix_refl _)
      rw [hloop write hfirst fun _ => hbreak]
      refine ⟨hrun.1.trans (congrArg _ (congrArg _ hbuf)), fun _ => ?_⟩
      apply (hkept.drop s.calls.length).subset
      show _ ∈ (s.calls ++ w ++ quiet ++ ending devout true 1).drop s.calls.length
      rw [List.append_assoc, List.append_assoc, List.drop_left]
      simp [ending, breakCalls]

/-- Every chunk that has a meaning is taken by some device that cuts its breaks. -/
theorem exists_cut {start : ℕ} {s : State} (hstart : start ≤ s.curr) (hcurr : s.curr ≤ s.buf.length)
    {is : List (Item Byte)} (hmeaning : meaning o devout s = some is) :
    ∃ B, Cut o devout start s is B := by
  induction hn : s.buf.length - s.curr using Nat.strong_induction_on generalizing start s is with
  | _ n ih =>
      by_cases hlt : s.curr < s.buf.length
      · have hless : ∀ t : State, t.buf = s.buf → s.curr < t.curr → t.buf.length - t.curr < n := by
          intro t hbuf hcurr
          rw [hbuf]
          omega
        by_cases hch : s.buf[s.curr] = 92
        · rw [meaning_data o devout hlt (by rw [hch]; decide), Option.map_eq_some_iff,
            hch] at hmeaning
          obtain ⟨is', hmeaning, rfl⟩ := hmeaning
          let t := s.doubled devout start
          have ht : meaning o devout t = some is' := by
            rw [← hmeaning]
            apply meaning_calls o devout { s with curr := s.curr + 1 }
            rw [programs_append, programs_append]
            exact (List.append_nil _).trans (List.append_nil _)
          have ht' : t.curr ≤ t.buf.length := hlt
          obtain ⟨B, hB⟩ := ih _ (hless t rfl (Nat.lt_succ_self _)) le_rfl ht' ht rfl
          exact ⟨B, cut_backslash o devout hstart hlt hch hB⟩
        by_cases hesc : s.buf[s.curr] = escCharacter
        · obtain ⟨rv, t, quiet, breaks, -, hbuf, hcurr', hend, hescape⟩ :=
            meaning_escape o devout hlt hesc
          have hmeans : meaning o devout s = _ := (hescape o.write s.calls rfl).2
          rw [hmeaning] at hmeans
          split at hmeans
          · exact absurd hmeans (by simp)
          next hgo =>
          obtain ⟨is', hmeaning', rfl⟩ := Option.map_eq_some_iff.mp hmeans.symm
          let t₁ := escaped devout start s t quiet breaks
          have ht : meaning o devout t₁ = some is' := by
            rw [← hmeaning']
            refine meaning_calls o devout
              { t with calls := s.calls ++ quiet ++ ending devout breaks 2 } _ ?_
            rw [programs_ending, programs_ending, programs_append, programs_append, programs_append,
              programs_whole, List.append_nil]
          have ht' : t₁.curr ≤ t₁.buf.length := hend
          obtain ⟨B, hB⟩ := ih _ (hless t₁ hbuf hcurr') le_rfl ht' ht rfl
          exact cut_escape o devout hstart hlt hesc hgo hbuf
            (fun write calls hcalls => (hescape write calls hcalls).1) hB
        · rw [meaning_data o devout hlt hesc, Option.map_eq_some_iff] at hmeaning
          obtain ⟨is', hmeaning, rfl⟩ := hmeaning
          let t : State := { s with curr := s.curr + 1 }
          have ht : start ≤ t.curr := Nat.le_succ_of_le hstart
          have ht' : t.curr ≤ t.buf.length := hlt
          obtain ⟨B, hB⟩ := ih _ (hless t rfl (Nat.lt_succ_self _)) ht ht' hmeaning rfl
          exact ⟨B, cut_data o devout hlt hch hesc hB⟩
      · rw [meaning_end o devout hlt] at hmeaning
        obtain rfl := Option.some.inj hmeaning
        exact ⟨[], cut_end o devout hstart (by omega)⟩

theorem meaning_write (write : ℕ → ℕ → ℤ) (s : State) :
    meaning { o with write := write } devout s = meaning o devout s := by
  fun_induction meaning o devout s with
  | case1 s hlt ch read hesc broken hle =>
      rw [meaning, dif_pos hlt]
      exact (if_pos hesc).trans (if_pos hle)
  | case2 s hlt ch read hesc broken hgo ih =>
      rw [meaning, dif_pos hlt, ← ih]
      exact (if_pos hesc).trans (if_neg hgo)
  | case3 s hlt ch read hesc ih =>
      rw [meaning, dif_pos hlt, ← ih]
      exact if_neg hesc
  | case4 s hend => rw [meaning, dif_neg hend]

/-- **A lost network write.** A chunk that was taken was accepted as the whole code of
what it means, on every device, if and only if it asks for no break or command
mode ends the session; and in one run if and only if the writes of its breaks
were complete. -/
theorem flush2net_complete_iff (buf : List Byte) (s : State) :
    let loaded : State := { s with buf := buf.map (· &&& 0x7F), curr := 0, gotInput := true }
    ((∀ write : ℕ → ℕ → ℤ, (∀ k n, write k n ≤ n) →
        let r := flush2net { o with write := write } devout buf s
        r.1 = buf.length → ∃ is, meaning o devout loaded = some is ∧
          sentOn devout r.2.calls = sentOn devout s.calls ++ streamCode.encodeItems is ∧
          (∀ fd, fd ≠ devout → sentOn fd r.2.calls = sentOn fd s.calls) ∧
          streamCode.pending false (streamCode.encodeItems is) = false) ↔
      ∀ is, meaning o devout loaded = some is → .signal ∉ is) ∧
    ∀ write : ℕ → ℕ → ℤ,
      let r := flush2net { o with write := write } devout buf s
      r.1 = buf.length → ∃ is more, meaning o devout loaded = some is ∧
        r.2.calls = s.calls ++ more ∧
        (∀ fd, fd ≠ devout → sentOn fd more = []) ∧
        (sentOn devout more = streamCode.encodeItems is ↔
          ∀ rv, .write devout (text "\\b") rv ∈ more → 2 ≤ rv) := by
  intro loaded
  have hlen : loaded.buf.length = buf.length := List.length_map _
  have hrun : ∀ write : ℕ → ℕ → ℤ,
    (flush2net { o with write := write } devout buf s).1 = buf.length →
      ∃ is more ns, meaning o devout loaded = some is ∧
        (flush2net { o with write := write } devout buf s).2.calls = s.calls ++ more ∧
        Delivered devout [] is more ns := by
    intro write hrv
    have hrv' : (flush2netLoop { o with write := write } devout 0 loaded).1 =
      loaded.buf.length := by
      rw [hlen]
      exact hrv
    have hstart : 0 ≤ loaded.curr := Nat.zero_le _
    have h := flush2netLoop_delivered { o with write := write } devout hstart (Nat.zero_le _) hrv'
    rw [meaning_write] at h
    exact h
  refine ⟨⟨fun h is hmeaning hmem => ?_, fun hnone write _ hrv => ?_⟩, fun write hrv => ?_⟩
  · obtain ⟨B, hB⟩ := exists_cut o devout (Nat.zero_le loaded.curr) (Nat.zero_le _) hmeaning
    obtain ⟨hrv, hshort⟩ := hB.run (cutting B) fun k n _ => rfl
    rw [hlen] at hrv
    have hdevice : ∀ k n, cutting B k n ≤ n := fun k n => by
      rw [cutting]
      split <;> omega
    obtain ⟨is', hmeaning', hsent, -⟩ := h (cutting B) hdevice hrv
    obtain ⟨is'', more, ns, hmeaning'', hcalls, hdel⟩ := hrun (cutting B) hrv
    obtain rfl : is' = is'' := Option.some.inj (hmeaning'.symm.trans hmeaning'')
    have hcut : (flush2net { o with write := cutting B } devout buf s).2.calls.drop s.calls.length
        = more := by
      rw [hcalls, List.drop_left]
    have hone := hshort (hB.signal hmem)
    rw [hcalls, sentOn_append, List.append_right_inj] at hsent
    have := hdel.whole_iff.mp hsent 1 (hcut ▸ hone)
    omega
  · obtain ⟨is, more, ns, hmeaning, hcalls, hdel⟩ := hrun write hrv
    have hns : ns = [] := by
      rw [← List.length_eq_zero_iff, hdel.count]
      exact List.count_eq_zero.mpr (hnone is hmeaning)
    refine ⟨is, hmeaning, ?_, fun fd hfd => ?_, (streamCode.decode_encodeItems is).2⟩
    case refine_2 => rw [hcalls, sentOn_append, hdel.elsewhere fd hfd, List.append_nil]
    rw [hcalls, sentOn_append, List.append_right_inj, hdel.whole_iff]
    intro rv hmem
    rcases hdel.others rv hmem with hn | hrv
    · rw [hns] at hn
      exact absurd hn List.not_mem_nil
    · exact hrv
  · obtain ⟨is, more, ns, hmeaning, hcalls, hdel⟩ := hrun write hrv
    exact ⟨is, more, hmeaning, hcalls, hdel.elsewhere, hdel.whole_iff⟩

end Loop

/-- A letter and a backslash go out whole as three bytes. -/
theorem flush2net_complete_data :
    let o : Outside := ⟨fun _ n => n, fun _ => 0, none⟩
    let r := flush2net o 3 [97, 92] (State.start [])
    sentOn 3 r.2.calls = [97, 92, 92] ∧ ∀ fd, fd ≠ 3 → sentOn fd r.2.calls = [] := by
  intro o r
  let loaded : State := ⟨[97, 92], 0, [], [], [], [], true, []⟩
  have hmeaning : meaning o 3 loaded = some [.data 97, .data 92] := by
    have hend := meaning_end o 3 (s := { loaded with curr := 2 }) (by decide)
    have hsecond := meaning_data o 3 (s := { loaded with curr := 1 }) (by decide) (by decide)
    have hfirst := meaning_data o 3 (s := loaded) (by decide) (by decide)
    rw [hfirst, hsecond, hend]
    rfl
  have hnone : ∀ is, meaning o 3 loaded = some is → .signal ∉ is := by
    intro is his
    obtain rfl := Option.some.inj (hmeaning.symm.trans his)
    simp
  have hdata : ∀ b ∈ ([97, 92] : List Byte), b ≠ 0 ∧ b ≠ 0x80 := by simp
  have ho : ∀ k n, o.write k n = n := fun _ _ => rfl
  have hd : (3 : ℤ) ≠ 1 := by decide
  have hrv : r.1 = 2 := (flushdata_complete ho hd hdata (State.start [])).1
  obtain ⟨is, his, hsent, hother, -⟩ :=
    (flush2net_complete_iff o 3 [97, 92] (State.start [])).1.mpr hnone o.write (fun _ _ => le_rfl) hrv
  obtain rfl := Option.some.inj (hmeaning.symm.trans his)
  exact ⟨hsent, hother⟩

/-- The device takes the backslash of a break and leaves its letter: the session goes
on behind half a pair, so that the next byte is read inside an escape. -/
theorem half_a_break :
    let o : Outside := ⟨fun _ n => if n = 2 then 1 else n, fun _ => 0, none⟩
    let r := Connectto.flushdata (flush2net o 3) (some [0]) (State.start [text "b"])
    0 < r.1 ∧ meaning o 3 { State.start [text "b"] with buf := [0], gotInput := true } =
        some [.signal] ∧
      sentOn 3 r.2.calls = [92] ∧ streamCode.pending false (sentOn 3 r.2.calls) = true := by
  intro o
  let s : State := ⟨[0], 0, [], [text "b"], [], [], true, []⟩
  let t (rv : ℤ) : State := ⟨[0], 1, [], [], [], [], true, breakCalls 3 rv⟩
  have hin : getInput { s with curr := 1 } = (some 98, { s with curr := 1, pieces := [] }) := rfl
  have hbreak : ∀ o : Outside, handlebreak o 3 { s with curr := 1 } = (1, t (o.write 1 2)) :=
    fun o => (handlebreak_some hin).trans rfl
  have hflush : flush2net o 3 [0] (State.start [text "b"]) = (1, t 1) := by
    have hloop : flush2netLoop o 3 0 s = flush2netLoop o 3 1 (t 1) :=
      flush2netLoop_escape o 3 (s := s) (by decide) rfl rfl (hbreak o) (by decide)
    rw [flush2net]
    refine Eq.trans hloop ?_
    rw [flush2netLoop, dif_neg (by decide)]
    rfl
  have hmeaning : meaning o 3 s = some [.signal] := by
    have hb := hbreak { o with write := fun _ n => n }
    rw [meaning, dif_pos (by decide)]
    refine (if_pos rfl).trans ?_
    show (if (handlebreak { o with write := fun _ n => n } 3 { s with curr := 1 }).1 ≤ 0 then none
      else _) = _
    rw [hb]
    refine (if_neg (by decide)).trans ?_
    exact congrArg (Option.map _) (meaning_end o 3 (s := t 2) (by decide))
  have hr : Connectto.flushdata (flush2net o 3) (some [0]) (State.start [text "b"]) = (1, t 1) := by
    simp only [Connectto.flushdata, hflush]
    rfl
  rw [hr]
  exact ⟨by decide, hmeaning, rfl, rfl⟩

end XinuConsole.Console
