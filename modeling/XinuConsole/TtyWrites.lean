import XinuConsole.Lib.PutBuffer
import XinuConsole.TtyConnect

/-!
Short and failing writes in the output filter of `src/tty-connect.c`.

The filter is a writer with the buffer `pc_buf`: a backslash that begins an
escape is skipped, a break is a call of its own, and in cooked mode a newline
becomes two characters, where the result of the first `PutChar` is not looked at.
-/

namespace XinuConsole.TtyConnect

open Lib Connectto

/-- What the filter makes of the characters of a chunk. -/
def units (cook : Bool) : Bool → List Byte → List (Put Byte)
  | _, [] => []
  | false, ch :: buf =>
      if ch = 92 then .skip :: units cook true buf
      else if cook = true ∧ ch = 10 then .pair 13 ch :: units cook false buf
      else .one ch :: units cook false buf
  | true, ch :: buf =>
      if ch = 98 then .call :: units cook false buf else .one ch :: units cook false buf

/-- The decoded output of a chunk, without the breaks. -/
def decoded (cook esc : Bool) (buf : List Byte) : List Byte :=
  payload (streamCode.decode (expand cook) esc buf)

/-- The bytes that one descriptor accepted. -/
def acceptedBy (fd : ℤ) (calls : List Call) : List Byte := payload (seenOn fd calls)

/-- The bytes that were accepted. -/
def accepted (calls : List Call) : List Byte := payload (observed calls)

/-- What is accepted of calls on one descriptor, that descriptor accepts, and no other. -/
theorem MoreOn.acceptedBy_iff {devout : ℤ} {calls calls' : List Call} (h : MoreOn devout calls calls')
    (bytes : List Byte) :
    acceptedBy devout calls' = acceptedBy devout calls ++ bytes ↔
      accepted calls' = accepted calls ++ bytes := by
  obtain ⟨more, rfl, hmore⟩ := h
  have hobs : observed (calls ++ more) = observed calls ++ observed more := List.flatMap_append
  rw [acceptedBy, acceptedBy, accepted, accepted, seenOn_append, (seenOn_of_fd hmore).1, hobs,
    payload_append, payload_append, List.append_right_inj, List.append_right_inj]

theorem MoreOn.acceptedBy_other {devout : ℤ} {calls calls' : List Call}
    (h : MoreOn devout calls calls') {fd : ℤ} (hfd : fd ≠ devout) :
    acceptedBy fd calls' = acceptedBy fd calls :=
  congrArg payload (h.other hfd)

theorem length_units (cook esc : Bool) (buf : List Byte) :
    (units cook esc buf).length = buf.length := by
  induction buf generalizing esc with
  | nil => cases esc <;> rfl
  | cons ch buf ih =>
      cases esc <;> simp only [units]
      · split
        · exact congrArg _ (ih true)
        · split <;> exact congrArg _ (ih false)
      · split <;> exact congrArg _ (ih false)

theorem output_units (cook esc : Bool) (buf : List Byte) :
    Put.output (units cook esc buf) = decoded cook esc buf := by
  simp only [decoded]
  induction buf generalizing esc with
  | nil => cases esc <;> rfl
  | cons ch buf ih =>
      cases esc with
      | false =>
          rw [units, EscapeCode.decode]
          by_cases hch : ch = 92
          · have hesc : ch = streamCode.esc := hch
            rw [if_pos hch, if_pos hesc]
            exact ih true
          have hesc : ¬ch = streamCode.esc := hch
          rw [if_neg hch, if_neg hesc, payload_append, payload_map_data, expand]
          by_cases hcook : cook = true ∧ ch = 10
          · rw [if_pos hcook, if_pos hcook, hcook.2, Put.output_cons, ih false]
            rfl
          · rw [if_neg hcook, if_neg hcook, Put.output_cons, ih false]
            rfl
      | true =>
          rw [units, EscapeCode.decode]
          by_cases hch : ch = 98
          · have hcmd : ch = streamCode.command := hch
            rw [if_pos hch, if_pos hcmd]
            exact ih false
          · have hcmd : ¬ch = streamCode.command := hch
            rw [if_neg hch, if_neg hcmd, Put.output_cons, ih false]
            rfl

/-! ### The filter is the writer -/

/-- The writer that the filter is, when `e` characters were not put. -/
def State.writer (s : State) (e : ℤ) : Writer Byte :=
  ⟨s.pcBuf, s.calls.length, accepted s.calls, s.pcRv + e⟩

theorem accepted_write (calls : List Call) (fd : ℤ) (bytes : List Byte) (rv : ℤ) :
    accepted (calls ++ [.write fd bytes rv]) = accepted calls ++ bytes.take rv.toNat := by
  have hitems : observed [.write fd bytes rv] = (bytes.take rv.toNat).map .data :=
    List.append_nil _
  rw [accepted, observed, List.flatMap_append, payload_append]
  exact congrArg _ ((congrArg payload hitems).trans (payload_map_data _))

theorem accepted_sendTTYBreak (calls : List Call) (fd : ℤ) :
    accepted (calls ++ [.sendTTYBreak fd]) = accepted calls := by
  rw [accepted, observed, List.flatMap_append, payload_append]
  exact List.append_nil _

variable (write : ℕ → ℕ → ℤ)

theorem putCharFlush_writer (s : State) (e : ℤ) :
    let r := putCharFlush write s
    (s.writer e).flush write = (r.1, r.2.writer e) ∧ r.2.esc = s.esc := by
  by_cases hbuf : s.pcBuf = []
  · have hbuf' : (s.writer e).buf = [] := hbuf
    rw [putCharFlush, if_pos hbuf, Writer.flush, if_pos hbuf']
    exact ⟨rfl, rfl⟩
  have hpos := List.length_pos_iff.mpr hbuf
  have hbuf' : (s.writer e).buf ≠ [] := hbuf
  rw [putCharFlush, if_neg hbuf]
  by_cases hshort : write s.calls.length s.pcBuf.length < s.pcBuf.length
  · rw [Writer.flush_of_short hbuf' hshort]
    by_cases hfail : write s.calls.length s.pcBuf.length ≤ 0
    · simp only [State.issueWrite, State.writer, hfail, if_true, max_eq_right, accepted_write,
        List.length_append, and_true]
      congr 2
      omega
    · have hmax : max (write s.calls.length s.pcBuf.length) 0
          = write s.calls.length s.pcBuf.length := max_eq_left (by omega)
      simp only [State.issueWrite, State.writer, hfail, hshort, if_true, if_false, hmax,
        accepted_write, List.length_append, and_true]
      congr 2
      omega
  · have hfail : ¬write s.calls.length s.pcBuf.length ≤ 0 := by omega
    have htake : s.pcBuf.take (write s.calls.length s.pcBuf.length).toNat = s.pcBuf :=
      List.take_of_length_le (by omega)
    rw [Writer.flush_of_taken hbuf' hshort]
    simp only [State.issueWrite, State.writer, hfail, hshort, if_false, accepted_write, htake,
      List.length_append, and_true]
    rfl

theorem putChar_writer (ch : Byte) (s : State) (e : ℤ) :
    let r := putChar write ch s
    (s.writer e).put pcLen write ch = (r.1, r.2.writer e) ∧ r.2.esc = s.esc := by
  obtain ⟨hflush, hesc⟩ := putCharFlush_writer write s e
  rw [putChar, Writer.put]
  dsimp only
  rcases Nat.lt_or_ge s.pcBuf.length pcLen with hlt | hge
  · have hbuf : ¬pcLen ≤ (s.writer e).buf.length := Nat.not_le.mpr hlt
    rw [if_neg (Nat.not_le.mpr hlt), if_neg hbuf]
    refine ⟨?_, rfl⟩
    simp only [if_true, State.writer]
    congr 2
    omega
  · have hbuf : pcLen ≤ (s.writer e).buf.length := hge
    rw [if_pos hge, if_pos hbuf, hflush]
    rcases hres : putCharFlush write s with ⟨_ | _, t⟩ <;> rw [hres] at hesc
    · exact ⟨rfl, hesc⟩
    · refine ⟨?_, hesc⟩
      simp only [if_true, State.writer]
      congr 2
      omega

theorem writer_succ (s : State) (e : ℤ) :
    s.writer (e + 1) = { s.writer e with count := (s.writer e).count + 1 } := by
  rw [State.writer, ← add_assoc]
  rfl

theorem writer_sendTTYBreak (s : State) (devout e : ℤ) :
    (s.sendTTYBreak devout).writer e = { s.writer e with calls := s.calls.length + 1 } := by
  rw [State.writer, State.sendTTYBreak, accepted_sendTTYBreak, List.length_append]
  rfl

/-- The loop is a run of the writer. -/
theorem flushLoop_writer (cook : Bool) (devout : ℤ) (buf : List Byte) (e : ℤ) (s : State) :
    let r := flushLoop write cook devout buf e s
    let w := (s.writer e).run pcLen write (units cook s.esc buf)
    r.1 = w.count ∧ accepted r.2.calls = w.accepted := by
  induction buf generalizing e s with
  | nil =>
      obtain ⟨hflush, -⟩ := putCharFlush_writer write s e
      have hnil : units cook s.esc [] = [] := by cases s.esc <;> rfl
      rw [hnil, Writer.run, Writer.putAll, hflush]
      exact ⟨rfl, rfl⟩
  | cons ch buf ih =>
      -- the last `PutChar` of the loop body
      have hlast : ∀ s₁, filterChar write cook devout ch s = (true, s₁) →
          let r := flushLoop write cook devout (ch :: buf) e s
          let w := (s₁.writer e).run pcLen write (.one ch :: units cook s₁.esc buf)
          r.1 = w.count ∧ accepted r.2.calls = w.accepted := by
        intro s₁ hs₁
        obtain ⟨hput, hesc⟩ := putChar_writer write ch s₁ e
        rw [flushLoop, hs₁, Writer.run, Writer.putAll, Writer.handle, hput]
        dsimp only
        rcases hres : putChar write ch s₁ with ⟨_ | _, s₂⟩ <;> rw [hres] at hesc
        · obtain ⟨hflush, -⟩ := putCharFlush_writer write s₂ e
          rw [if_neg Bool.false_ne_true, hflush]
          exact ⟨rfl, rfl⟩
        · rw [if_pos rfl, ← hesc]
          exact ih e s₂
      cases hs : s.esc with
      | false =>
          rw [units]
          by_cases hch : ch = 92
          · have hf : filterChar write cook devout ch s = (false, { s with esc := true }) := by
              rw [filterChar, if_pos hs, if_pos hch]
            rw [if_pos hch, flushLoop, hf, Writer.run_cons_of_ok rfl, ← writer_succ]
            exact ih (e + 1) { s with esc := true }
          rw [if_neg hch]
          by_cases hcook : cook = true ∧ ch = 10
          · obtain ⟨hput, hesc⟩ := putChar_writer write 13 s e
            have hf : filterChar write cook devout ch s = (true, (putChar write 13 s).2) := by
              rw [filterChar, if_pos hs, if_neg hch, if_pos hcook]
            have hpair : (s.writer e).run pcLen write (.pair 13 ch :: units cook false buf) =
                ((putChar write 13 s).2.writer e).run pcLen write
                  (.one ch :: units cook (putChar write 13 s).2.esc buf) := by
              rw [hesc, hs, Writer.run_pair, hput]
            rw [if_pos hcook, hpair]
            exact hlast _ hf
          · have hf : filterChar write cook devout ch s = (true, s) := by
              rw [filterChar, if_pos hs, if_neg hch, if_neg hcook]
            rw [if_neg hcook, ← hs]
            exact hlast s hf
      | true =>
          have hesc : ¬s.esc = false := by simp [hs]
          rw [units]
          by_cases hch : ch = 98
          · have hf : filterChar write cook devout ch s =
                (false, { s with esc := false }.sendTTYBreak devout) := by
              rw [filterChar, if_neg hesc, if_pos hch]
            have hrun : (s.writer e).run pcLen write (.call :: units cook false buf) =
                (({ s with esc := false }.sendTTYBreak devout).writer (e + 1)).run pcLen write
                  (units cook false buf) := by
              rw [Writer.run_cons_of_ok rfl, writer_succ, writer_sendTTYBreak]
              rfl
            rw [if_pos hch, flushLoop, hf, hrun]
            exact ih (e + 1) ({ s with esc := false }.sendTTYBreak devout)
          · have hf : filterChar write cook devout ch s = (true, { s with esc := false }) := by
              rw [filterChar, if_neg hesc, if_neg hch]
            rw [if_neg hch]
            exact hlast { s with esc := false } hf

/-! ### One chunk -/

/-- The places in the decoded output of the characters that are accepted, in order. -/
def positions (cook : Bool) (s : State) (buf : List Byte) : List ℕ :=
  ((⟨[], s.calls.length, [], 0⟩ : Writer ℕ).run pcLen write
    (Put.number (units cook s.esc buf) 0)).accepted

section Chunk

variable {o : Options} (ht : o.transparent = false) {devout : ℤ} (hd : devout ≠ 1)
include ht hd

theorem flushdata_writer (buf : List Byte) (s : State) :
    let r := flushdata write o devout buf s
    let w := (⟨[], s.calls.length, [], 0⟩ : Writer Byte).run pcLen write (units o.cook s.esc buf)
    r.1 = w.count ∧ accepted r.2.calls = accepted s.calls ++ w.accepted := by
  obtain ⟨hcount, hacc⟩ := flushLoop_writer write o.cook devout buf 0 (putCharStart devout s)
  have hstart : (putCharStart devout s).writer 0 =
      (⟨[], s.calls.length, [], 0⟩ : Writer Byte).map (accepted s.calls) id := by
    simp [State.writer, putCharStart, Writer.map]
  have hrun := Writer.run_map pcLen write (accepted s.calls) id (units o.cook s.esc buf)
    ⟨[], s.calls.length, [], 0⟩
  rw [Put.map_id, List.map_id] at hrun
  have hesc : (putCharStart devout s).esc = s.esc := rfl
  rw [hstart, hesc, hrun] at hcount hacc
  simp only [flushdata, ht, Bool.false_eq_true, if_false, hd]
  exact ⟨hcount, hacc.trans (congrArg _ (List.map_id _))⟩

/-- The positions are those of the bytes that the device accepts. -/
theorem flushdata_positions (buf : List Byte) (s : State) (d : Byte) :
    acceptedBy devout (flushdata write o devout buf s).2.calls = acceptedBy devout s.calls ++
      (positions write o.cook s buf).map fun i => (decoded o.cook s.esc buf).getD i d := by
  rw [(flushdata_adds write o buf s).acceptedBy_iff]
  obtain ⟨-, hacc⟩ := flushdata_writer write ht hd buf s
  have hnumber := Put.map_number (units o.cook s.esc buf) 0
    (fun i => (decoded o.cook s.esc buf).getD i d) fun i hi => by
      rw [zero_add, ← output_units, List.getD, List.getElem?_eq_getElem hi]
      rfl
  have hrun := Writer.run_map pcLen write [] (fun i => (decoded o.cook s.esc buf).getD i d)
    (Put.number (units o.cook s.esc buf) 0) ⟨[], s.calls.length, [], 0⟩
  rw [hnumber] at hrun
  rw [hacc]
  exact congrArg _ (congrArg Writer.accepted hrun)

/-- **No byte twice.** Whatever the device takes of a write, the bytes that it accepts
of a chunk are a prefix of the decoded chunk, place by place, if the decoded chunk
fits into the buffer or all writes of a full buffer are complete; and for no longer
chunk are they a prefix on every device. -/
theorem no_byte_twice_iff (buf : List Byte) (s : State) :
    let out := decoded o.cook s.esc buf
    let places := List.range out.length
    (∀ write d, acceptedBy devout (flushdata write o devout buf s).2.calls =
      acceptedBy devout s.calls ++ (positions write o.cook s buf).map fun i => out.getD i d) ∧
    (∀ write fd, fd ≠ devout →
      acceptedBy fd (flushdata write o devout buf s).2.calls = acceptedBy fd s.calls) ∧
    ((∀ write, Writer.Device write → positions write o.cook s buf <+: places) ↔
      out.length ≤ pcLen) ∧
    ∀ write, (∀ k, (pcLen : ℤ) ≤ write k pcLen) → positions write o.cook s buf <+: places := by
  refine ⟨fun write d => flushdata_positions write ht hd buf s d, fun write fd hfd =>
    (flushdata_adds write o buf s).acceptedBy_other hfd, ?_, fun write hfull => ?_⟩
  · have hcap : 2 ≤ pcLen := by decide
    have h := Writer.run_number_prefix_iff hcap (units o.cook s.esc buf)
      s.calls.length 0
    rw [output_units] at h
    exact h
  · have h := Writer.run_prefix_of_full hfull (by decide) (Put.number (units o.cook s.esc buf) 0)
      s.calls.length 0
    rw [Put.output_number, output_units, ← List.range_eq_range'] at h
    exact h

end Chunk

/-- Two bytes of which the device leaves one over. -/
theorem no_byte_twice_short :
    positions (fun _ n => n - 1) false State.start (text "ab") <+: List.range 2 :=
  have hd : (3 : ℤ) ≠ 1 := by decide
  ((no_byte_twice_iff (o := ⟨false, false⟩) rfl hd (text "ab") State.start).2.2.1.mpr (by decide))
    _ fun _ _ => Int.sub_le_self _ (by decide)

theorem units_replicate {b : Byte} (hb : b ≠ 92) (n : ℕ) :
    units false false (List.replicate n b) = List.replicate n (.one b) := by
  induction n with
  | zero => rfl
  | succ n ih =>
      rw [List.replicate_succ, units, if_neg hb, if_neg (by simp), ih]
      rfl

theorem stingy_first_byte {n : ℕ} (hn : pcLen ≤ n) :
    let buf := 97 :: List.replicate n 98
    ¬acceptedBy 3 (flushdata Writer.stingy ⟨false, false⟩ 3 buf State.start).2.calls <+:
      decoded false false buf := by
  intro buf hprefix
  have hunits : units false false buf = .one 97 :: List.replicate n (.one 98) := by
    rw [units, if_neg (by decide), if_neg (by decide), units_replicate (by decide)]
  have hout : Put.output (units false false buf) = buf := by
    rw [hunits, Put.output_cons, Put.output, List.flatMap_replicate]
    simp [Put.items, buf]
  have hd : (3 : ℤ) ≠ 1 := by decide
  have hcap : 2 ≤ pcLen := by decide
  obtain ⟨-, hacc⟩ := flushdata_writer Writer.stingy (o := ⟨false, false⟩) rfl hd buf State.start
  have htwice := Writer.run_stingy (w := ⟨[], 0, [], 0⟩) hcap (units false false buf) hout
    (by rw [List.length_replicate]; exact hn) (Nat.zero_le _)
  have hon := ((flushdata_adds Writer.stingy ⟨false, false⟩ buf State.start).acceptedBy_iff _).mpr hacc
  rw [← output_units, hout, hon] at hprefix
  obtain ⟨-, hsecond⟩ := List.cons_prefix_cons.mp (htwice.trans hprefix)
  cases n with
  | zero => exact absurd hn (by decide)
  | succ n => exact absurd (List.cons_prefix_cons.mp hsecond).1 (by decide)

/-- One byte more than the buffer holds, on a device that takes one byte of every
write: the first byte is accepted twice. -/
theorem first_byte_twice :
    let buf := 97 :: List.replicate 1024 98
    Writer.Device Writer.stingy ∧
      ¬acceptedBy 3 (flushdata Writer.stingy ⟨false, false⟩ 3 buf State.start).2.calls <+:
        decoded false false buf :=
  ⟨Writer.stingy_device, stingy_first_byte (le_refl pcLen)⟩

/-! ### Chunks without pairs -/

theorem units_single (cook esc : Bool) (buf : List Byte) :
    (units cook esc buf).map Put.single = units false esc buf := by
  induction buf generalizing esc with
  | nil => cases esc <;> rfl
  | cons ch buf ih =>
      cases esc with
      | false =>
          have hcook : ¬(false = true ∧ ch = 10) := by simp
          rw [units, units, if_neg hcook]
          split
          · exact congrArg _ (ih true)
          · split <;> exact congrArg _ (ih false)
      | true =>
          rw [units, units]
          split <;> exact congrArg _ (ih false)

/-- The cooked mode adds nothing to a chunk whose characters stay single. -/
theorem decoded_eq_iff (cook esc : Bool) (buf : List Byte) :
    decoded cook esc buf = decoded false esc buf ↔ Put.pairs (units cook esc buf) = 0 := by
  rw [← output_units, ← output_units, ← units_single cook]
  exact Put.output_single_iff _

/-- **A lost write.** On every device a chunk for which the session goes on was
accepted in full if and only if the cooked mode adds nothing to it. -/
theorem lost_write_iff {o : Options} (ht : o.transparent = false) {devout : ℤ} (hd : devout ≠ 1)
    (buf : List Byte) (s : State) :
    (∀ write, Writer.Device write →
        0 < (Connectto.flushdata (flushdata write o devout) (some buf) s).1 →
        acceptedBy devout (flushdata write o devout buf s).2.calls =
          acceptedBy devout s.calls ++ decoded o.cook s.esc buf) ↔
      decoded o.cook s.esc buf = decoded false s.esc buf := by
  rw [decoded_eq_iff]
  have hcap : 0 < pcLen := by decide
  have h := Writer.run_count_iff hcap (units o.cook s.esc buf) s.calls.length
  rw [output_units, length_units] at h
  rw [← h]
  refine forall_congr' fun write => imp_congr_right fun _ => ?_
  obtain ⟨hcount, hacc⟩ := flushdata_writer write ht hd buf s
  rw [(flushdata_adds write o buf s).acceptedBy_iff, hacc, List.append_right_inj]
  cases buf with
  | nil => exact ⟨fun _ _ => by cases s.esc <;> rfl, fun _ hpos => absurd hpos (lt_irrefl _)⟩
  | cons b buf => rw [flushdata_pos_iff, hcount]

/-- Raw, a chunk that the device took but for one byte ends the session. -/
theorem lost_write_raw :
    ¬0 < (Connectto.flushdata (flushdata (fun _ n => n - 1) ⟨false, false⟩ 3) (some (text "ab"))
      State.start).1 := fun hpos =>
  have hd : (3 : ℤ) ≠ 1 := by decide
  have hall := (lost_write_iff (o := ⟨false, false⟩) rfl hd (text "ab") State.start).mpr rfl
    (fun _ n => n - 1) (fun _ _ => Int.sub_le_self _ (by decide)) hpos
  absurd hall (by decide)

/-- A newline is two characters on the tty: the write that lost the second one
returns as many as the chunk has. -/
theorem newline_lost :
    let write : ℕ → ℕ → ℤ := fun _ n => n - 1
    let r := Connectto.flushdata (flushdata write ⟨false, true⟩ 3) (some (text "a\n")) State.start
    Writer.Device write ∧ 0 < r.1 ∧ acceptedBy 3 r.2.calls = text "a\r" ∧
      decoded true false (text "a\n") = text "a\r\n" := by
  exact ⟨fun k n => Int.sub_le_self _ (by decide), by decide, by decide, by decide⟩

end XinuConsole.TtyConnect
