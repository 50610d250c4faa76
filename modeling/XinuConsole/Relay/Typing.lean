import XinuConsole.NetWrites

/-!
What is typed on xinu-console, as items of the stream: also for the chunk in which
command mode ends the session.
-/

namespace XinuConsole.Console

open Lib Connectto

/-! ### What a chunk says -/

section Said

variable (o : Outside) (devout : ℤ)

/-- The items of what is left of a chunk: data for its bytes, and behind an escape
character the breaks that are asked for. Command mode may end the session; what
comes behind that is not said. -/
def said (s : State) : List (Item Byte) :=
  if _h : s.curr < s.buf.length then
    let ch := s.buf[s.curr]
    let read := { s with curr := s.curr + 1 }
    if ch = escCharacter then
      let broken := handlebreak o devout read
      breaksOf (broken.2.calls.drop read.calls.length) ++
        if broken.1 ≤ 0 then [] else said broken.2
    else .data ch :: said read
  else []
termination_by s.buf.length - s.curr
decreasing_by
  · obtain ⟨hbuf, hcurr⟩ := handlebreak_frame o devout read
    have hless : ∀ s' : State, s'.buf = s.buf → s.curr + 1 ≤ s'.curr →
        s'.buf.length - s'.curr < s.buf.length - s.curr := by
      intro s' hbuf hcurr
      rw [hbuf]
      omega
    exact hless _ hbuf hcurr
  · omega

theorem said_end {s : State} (hend : ¬s.curr < s.buf.length) : said o devout s = [] := by
  rw [said, dif_neg hend]

theorem said_data {s : State} (hlt : s.curr < s.buf.length)
    (hesc : ¬s.buf[s.curr] = escCharacter) :
    said o devout s = .data s.buf[s.curr] :: said o devout { s with curr := s.curr + 1 } := by
  rw [said, dif_pos hlt]
  exact if_neg hesc

/-- The effect of command mode on what a chunk says. -/
theorem said_escape {s : State} (hlt : s.curr < s.buf.length)
    (hesc : s.buf[s.curr] = escCharacter) :
    ∃ (rv : ℤ) (t : State) (more : List Call) (breaks : Bool),
      (∀ c ∈ more, Call.Quiet c) ∧ t.buf = s.buf ∧ s.curr < t.curr ∧ t.curr ≤ t.buf.length ∧
      ∀ calls : List Call, programs calls = programs s.calls →
        let after := calls ++ more ++ ending devout breaks (o.write (calls.length + more.length + 1) 2)
        handlebreak o devout { s with curr := s.curr + 1, calls := calls } =
            (rv, { t with calls := after }) ∧
          said o devout { s with calls := calls } = (if breaks then [.signal] else []) ++
            if rv ≤ 0 then [] else said o devout { t with calls := after } := by
  obtain ⟨rv, t, more, breaks, hquiet, h⟩ :=
    handlebreak_cases o devout { s with curr := s.curr + 1 }
  obtain ⟨hbuf, hcurr⟩ := handlebreak_frame o devout { s with curr := s.curr + 1 }
  have hend := handlebreak_curr_le devout (o := o) (s := { s with curr := s.curr + 1 }) hlt
  rw [h o.write s.calls rfl] at hbuf hcurr hend
  refine ⟨rv, t, more, breaks, hquiet, hbuf, hcurr, hend, fun calls hcalls =>
    ⟨h o.write calls hcalls, ?_⟩⟩
  have hbroken := h o.write calls hcalls
  have hdrop (rv' : ℤ) : (calls ++ more ++ ending devout breaks rv').drop calls.length =
      more ++ ending devout breaks rv' := by
    rw [List.append_assoc, List.drop_left]
  rw [said, dif_pos hlt]
  simp only [hesc, if_true, hbroken, hdrop, breaksOf_quiet devout hquiet]

/-- What a chunk says does not depend on the calls made before. -/
theorem said_calls (s : State) (calls : List Call) (hcalls : programs calls = programs s.calls) :
    said o devout { s with calls := calls } = said o devout s := by
  induction hn : s.buf.length - s.curr using Nat.strong_induction_on generalizing s calls with
  | _ n ih =>
      by_cases hlt : s.curr < s.buf.length
      · by_cases hesc : s.buf[s.curr] = escCharacter
        · obtain ⟨rv, t, more, breaks, -, hbuf, hcurr, -, h⟩ := said_escape o devout hlt hesc
          obtain ⟨-, hleft⟩ := h calls hcalls
          obtain ⟨-, hright⟩ := h s.calls rfl
          have hless : t.buf.length - t.curr < n := by
            rw [hbuf]
            omega
          have hsame := ih _ hless
            { t with
              calls := s.calls ++ more ++
                ending devout breaks (o.write (s.calls.length + more.length + 1) 2) }
            (calls ++ more ++ ending devout breaks (o.write (calls.length + more.length + 1) 2)) (by
              rw [programs_ending, programs_ending, programs_append, programs_append, hcalls]) rfl
          rw [hleft, hsame]
          exact hright.symm
        · have hless : s.buf.length - (s.curr + 1) < n := by omega
          have hsame := ih _ hless { s with curr := s.curr + 1 } calls hcalls rfl
          rw [said_data o devout hlt hesc, said_data o devout (s := { s with calls := calls }) hlt hesc,
            hsame]
      · rw [said_end o devout hlt, said_end o devout (s := { s with calls := calls }) hlt]

theorem said_taken {bytes : List Byte} {w : List Call} (hw : Taken devout bytes w) (s : State) :
    said o devout { s with calls := s.calls ++ w } = said o devout s := by
  apply said_calls
  rw [programs_append, hw.1, List.append_nil]

/-! What the loop does between two reads of a chunk: what it wrote, what that says,
and how it goes in front of what is sent later. -/

theorem said_through_backslash {start : ℕ} {s : State} (hstart : start ≤ s.curr)
    (hlt : s.curr < s.buf.length) (hch : s.buf[s.curr] = 92) :
    let read := { s with curr := s.curr + 1 }
    let sent := read.sendRange o devout start (read.curr - start)
    let doubled := sent.2.issueWrite o devout [92]
    ¬sent.1 = false → doubled.1 = 1 →
      ∃ first, doubled.2.buf = s.buf ∧ doubled.2.curr = s.curr + 1 ∧
        doubled.2.calls = s.calls ++ first ∧
        said o devout s = .data 92 :: said o devout doubled.2 ∧
        ∀ {items more ns}, Delivered devout [] items more ns →
          Delivered devout (s.pending start) (.data 92 :: items) (first ++ more) ns := by
  intro read sent doubled hok hdoubled
  obtain ⟨w, hsent, hw⟩ := sendRange_taken o devout
    (show start + (read.curr - start) ≤ read.buf.length by simp only [read]; omega) hok
  have hrange : (read.buf.drop start).take (read.curr - start) = s.pending start ++ [92] := by
    rw [← hch]
    exact pending_advance hstart hlt
  have hw₂ : Taken devout [92] [.write devout [92] doubled.1] := taken_write devout hdoubled.ge
  have hstate : doubled.2 =
      { read with calls := read.calls ++ w ++ [.write devout [92] doubled.1] } := by
    have hsent : sent.2 = _ := hsent
    show ({ sent.2 with calls := sent.2.calls ++ [.write devout [92] doubled.1] } : State) = _
    rw [hsent]
  refine ⟨w ++ [.write devout [92] doubled.1], ?_, ?_, ?_, ?_, fun hdel => ?_⟩
  · rw [hstate]
  · rw [hstate]
  · rw [hstate, List.append_assoc]
  · have hread := said_taken o devout hw₂ { read with calls := read.calls ++ w }
    rw [hstate, hread, said_taken o devout hw read, said_data o devout hlt (by rw [hch]; simp), hch]
  · have h := hw.2 (hw₂.2 hdel)
    rw [hrange, List.append_nil] at h
    rw [List.append_assoc]
    exact h.backslash

theorem said_through_escape {start : ℕ} {s : State} (hstart : start ≤ s.curr)
    (hlt : s.curr < s.buf.length) (hesc : s.buf[s.curr] = escCharacter) :
    let read := { s with curr := s.curr + 1 }
    let sent := read.sendPending o devout start (read.curr - start - 1)
    let broken := handlebreak o devout sent.2
    ¬sent.1 = false →
      ∃ first breaks, broken.2.curr ≤ broken.2.buf.length ∧ broken.2.calls = s.calls ++ first ∧
        said o devout s = breaks ++ (if broken.1 ≤ 0 then [] else said o devout broken.2) ∧
        ∀ {items more ns}, Delivered devout [] items more ns →
          ∃ ns', Delivered devout (s.pending start) (breaks ++ items) (first ++ more) ns' := by
  intro read sent broken hok
  obtain ⟨w, hsent, hw⟩ := sendPending_taken o devout
    (show start + (read.curr - start - 1) ≤ read.buf.length by simp only [read]; omega) hok
  have hrange : (read.buf.drop start).take (read.curr - start - 1) = s.pending start := by
    simp only [read, State.pending]
    congr 1
    omega
  obtain ⟨rv, t, quiet, breaks, hquiet, -, -, hend, hescape⟩ := said_escape o devout hlt hesc
  obtain ⟨hhandle, hsaid⟩ := hescape (s.calls ++ w) (by
    rw [programs_append, hw.1, List.append_nil])
  generalize o.write ((s.calls ++ w).length + quiet.length + 1) 2 = rv₂ at hhandle hsaid
  have hbroken : broken = _ := (congrArg (handlebreak o devout) hsent).trans hhandle
  rw [said_taken o devout hw s] at hsaid
  rw [hbroken]
  refine ⟨w ++ quiet ++ ending devout breaks rv₂, _, hend, ?_, hsaid, fun {items more ns} hdel => ?_⟩
  · simp only [List.append_assoc]
  · cases breaks with
    | false =>
        have h := hw.2 (hdel.quiet hquiet)
        rw [hrange, List.append_nil] at h
        exact ⟨_, by simpa [ending] using h⟩
    | true =>
        have h := hw.2 ((hdel.signal rv₂).quiet hquiet)
        rw [hrange, List.append_nil] at h
        exact ⟨_, by simpa [ending] using h⟩

/-- **The loop** with complete writes sends what the chunk says, also when the session
ends in it. -/
theorem flush2netLoop_said (ho : ∀ k n, o.write k n = n) {start : ℕ} {s : State}
    (hstart : start ≤ s.curr) (hcurr : s.curr ≤ s.buf.length) :
    ∃ more ns, (flush2netLoop o devout start s).2.calls = s.calls ++ more ∧
      Delivered devout (s.pending start) (said o devout s) more ns := by
  -- no write is short
  have hsends (s : State) {start clen : ℕ} (h : start + clen ≤ s.buf.length) :
      ¬(s.sendRange o devout start clen).1 = false := by
    obtain ⟨calls, hw, -⟩ := sendRange_complete ho s devout h
    simp [hw]
  fun_induction flush2netLoop o devout start s with
  | case1 start s hlt ch read hch sent hshort =>
      exact absurd hshort (hsends read (by simp only [read]; omega))
  | case2 start s hlt ch read hch sent hok doubled hdoubled => exact absurd (ho _ _) hdoubled
  | case3 start s hlt ch read hch sent hok doubled hdoubled ih =>
      obtain ⟨first, hbuf, hnext, hfirst, hsaid, hput⟩ :=
        said_through_backslash o devout hstart hlt hch hok (not_not.mp hdoubled)
      obtain ⟨more, ns, hcalls, hdel⟩ := ih le_rfl (by rw [hbuf, hnext]; exact hlt)
      rw [pending_self] at hdel
      refine ⟨first ++ more, ns, ?_, ?_⟩
      · rw [hcalls, hfirst, List.append_assoc]
      · rw [hsaid]
        exact hput hdel
  | case4 start s hlt ch read hch hesc sent hshort =>
      have hinside : start + (read.curr - start - 1) ≤ read.buf.length := by
        simp only [read]
        omega
      have hsends := hsends read hinside
      simp only [sent, State.sendPending] at hshort
      split at hshort
      · exact absurd hshort hsends
      · exact absurd hshort (by simp)
  | case5 start s hlt ch read hch hesc sent hok broken hle =>
      obtain ⟨first, breaks, -, hfirst, hsaid, hput⟩ :=
        said_through_escape o devout hstart hlt hesc hok
      obtain ⟨ns, hdel⟩ := hput Delivered.nil
      rw [if_pos hle] at hsaid
      rw [hsaid]
      exact ⟨_, ns, hfirst, by simpa using hdel⟩
  | case6 start s hlt ch read hch hesc sent hok broken hgo ih =>
      obtain ⟨first, breaks, hend, hfirst, hsaid, hput⟩ :=
        said_through_escape o devout hstart hlt hesc hok
      obtain ⟨more, ns, hcalls, hdel⟩ := ih le_rfl hend
      rw [pending_self] at hdel
      obtain ⟨ns, hdel⟩ := hput hdel
      rw [if_neg hgo] at hsaid
      refine ⟨first ++ more, ns, ?_, ?_⟩
      · rw [hcalls, hfirst, List.append_assoc]
      · rw [hsaid]
        exact hdel
  | case7 start s hlt ch read hch hesc ih =>
      obtain ⟨more, ns, hcalls, hdel⟩ := ih (Nat.le_succ_of_le hstart) hlt
      have hread : read.pending start = s.pending start ++ [ch] := pending_advance hstart hlt
      rw [hread] at hdel
      rw [said_data o devout hlt hesc]
      exact ⟨more, ns, hcalls, hdel.data hch⟩
  | case8 start s hend hne sent hshort => exact absurd hshort (hsends s (by omega))
  | case9 start s hend hne sent hok =>
      obtain ⟨w, hsent, hw⟩ := sendRange_taken o devout
        (show start + (s.curr - start) ≤ s.buf.length by omega) hok
      have hdel := hw.2 Delivered.nil
      rw [List.append_nil, List.append_nil] at hdel
      rw [said_end o devout hend]
      exact ⟨w, [], congrArg State.calls hsent, hdel⟩
  | case10 start s hend heq =>
      obtain rfl : s.curr = start := not_not.mp heq
      rw [pending_self, said_end o devout hend]
      exact ⟨[], [], (List.append_nil _).symm, Delivered.nil⟩

end Said

/-- A chunk read from the keyboard, as `flush2net` starts with it. -/
def State.loaded (s : State) (buf : List Byte) : State :=
  { s with buf := buf.map (· &&& 0x7F), curr := 0, gotInput := true }

/-- **A chunk** sends the code of what it says, and nothing to another descriptor. -/
theorem flush2net_said {o : Outside} (ho : ∀ k n, o.write k n = n) (devout : ℤ) (buf : List Byte)
    (s : State) :
    let calls := (flush2net o devout buf s).2.calls
    sentOn devout calls =
        sentOn devout s.calls ++ streamCode.encodeItems (said o devout (s.loaded buf)) ∧
      ∀ fd, fd ≠ devout → sentOn fd calls = sentOn fd s.calls := by
  intro calls
  have hle : (s.loaded buf).curr ≤ (s.loaded buf).buf.length := Nat.zero_le _
  obtain ⟨more, ns, hcalls, hdel⟩ := flush2netLoop_said o devout ho (Nat.le_refl 0) hle
  have hcalls : calls = s.calls ++ more := hcalls
  have hmade : ∀ c ∈ more, Made o devout c := by
    have hnone : ∃ more, (s.loaded buf).calls = s.calls ++ more ∧ ∀ c ∈ more, Made o devout c :=
      ⟨[], by simp [State.loaded], by simp⟩
    have hadded : ∃ more, calls = s.calls ++ more ∧ ∀ c ∈ more, Made o devout c :=
      (kept_made o devout s.calls).through_loop hnone
    obtain ⟨more', hcalls', hmade⟩ := hadded
    obtain rfl : more = more' := List.append_cancel_left (hcalls.symm.trans hcalls')
    exact hmade
  have hempty : (s.loaded buf).pending 0 = [] := rfl
  rw [hempty] at hdel
  refine ⟨?_, fun fd hfd => by rw [hcalls, sentOn_append, hdel.elsewhere fd hfd, List.append_nil]⟩
  rw [hcalls, sentOn_append]
  congr 1
  -- the writes of breaks are whole
  refine hdel.whole_iff.mpr fun rv hmem => ?_
  generalize hbreak : (.write devout (text "\\b") rv : Call) = c at hmem
  cases hmade c hmem with
  | write bytes k =>
      obtain ⟨-, rfl, rfl⟩ := Call.write.inj hbreak
      exact (ho k 2).ge
  | echo | run | suspend => exact absurd hbreak (by simp)

end XinuConsole.Console
