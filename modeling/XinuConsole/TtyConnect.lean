import XinuConsole.Connectto

/-!
The output filter of `src/tty-connect.c`: `PutCharStart`, `PutChar`,
`PutCharFlush`, `PutCharEnd` and `flushdata`.

Data for the tty goes through the buffer `pc_buf` of `PC_LEN` bytes; a break is
sent at once. Calls of the operating system are collected in the order in which
they are made, with the result that it gives them.
-/

namespace XinuConsole.TtyConnect

open Lib Connectto

@[simp] def pcLen : ℕ := 1024

/-- A call of the operating system. -/
inductive Call
  | write (fd : ℤ) (bytes : List Byte) (rv : ℤ)
  | sendTTYBreak (fd : ℤ)
  deriving DecidableEq

/-- The static variables of the filter. The characters in `pc_buf` are those in
front of `pc_len`. -/
structure State where
  esc : Bool
  pcDev : ℤ
  pcRv : ℤ
  pcBuf : List Byte
  calls : List Call
  deriving DecidableEq

/-- The options `-t` and `-c`. -/
structure Options where
  transparent : Bool
  cook : Bool

/-- A tty-connect that was just started. -/
def State.start : State := ⟨false, -1, 0, [], []⟩

section Filter

/-! `write k n` is the result of the call number `k` if it is a write of `n`
bytes. -/
variable (write : ℕ → ℕ → ℤ)

def State.issueWrite (s : State) (fd : ℤ) (bytes : List Byte) : ℤ × State :=
  let rv := write s.calls.length bytes.length
  (rv, { s with calls := s.calls ++ [.write fd bytes rv] })

def State.sendTTYBreak (s : State) (fd : ℤ) : State :=
  { s with calls := s.calls ++ [.sendTTYBreak fd] }

def putCharStart (dev : ℤ) (s : State) : State := { s with pcDev := dev, pcRv := 0, pcBuf := [] }

def putCharFlush (s : State) : Bool × State :=
  if s.pcBuf = [] then (true, s)
  else
    let (rv, s) := s.issueWrite write s.pcDev s.pcBuf
    if rv ≤ 0 then (false, { s with pcRv := s.pcRv - s.pcBuf.length })
    else if rv < s.pcBuf.length then
      (false, { s with pcRv := s.pcRv - (s.pcBuf.length - rv) })
    else (true, { s with pcBuf := [] })

def putChar (ch : Byte) (s : State) : Bool × State :=
  let (ok, s) := if pcLen ≤ s.pcBuf.length then putCharFlush write s else (true, s)
  if ok then (true, { s with pcBuf := s.pcBuf ++ [ch], pcRv := s.pcRv + 1 })
  else (false, s)

def putCharEnd (s : State) : ℤ × State :=
  let s := (putCharFlush write s).2
  (s.pcRv, { s with pcDev := -1, pcRv := 0 })

/-- The part of the loop body in front of the last `PutChar`, and whether it
gets there. -/
def filterChar (cook : Bool) (devout : ℤ) (ch : Byte) (s : State) : Bool × State :=
  if s.esc = false then
    if ch = 92 then (false, { s with esc := true })
    else if cook = true ∧ ch = 10 then (true, (putChar write 13 s).2)
    else (true, s)
  else
    let s := { s with esc := false }
    -- the break does not wait for what `PutChar` still holds
    if ch = 98 then (false, s.sendTTYBreak devout) else (true, s)

/-- The loop of `flushdata` over the characters of the buffer, with the count
`e` of those that are not put. -/
def flushLoop (cook : Bool) (devout : ℤ) : List Byte → ℤ → State → ℤ × State
  | [], e, s =>
      let (rv, s) := putCharEnd write s
      (rv + e, s)
  | ch :: buf, e, s =>
      match filterChar write cook devout ch s with
      | (false, s) => flushLoop cook devout buf (e + 1) s
      | (true, s) =>
        match putChar write ch s with
        | (true, s) => flushLoop cook devout buf e s
        | (false, s) =>
          let (rv, s) := putCharEnd write s
          (rv + e, s)

/-- `flushdata`; the descriptor of the standard output is 1. -/
def flushdata (o : Options) (devout : ℤ) (buf : List Byte) (s : State) : ℤ × State :=
  if o.transparent = true then s.issueWrite write devout buf
  else if devout = 1 then s.issueWrite write devout buf
  else flushLoop write o.cook devout buf 0 (putCharStart devout s)

end Filter

/-! ### Specification -/

/-- In cooked mode a newline becomes a carriage return and a newline. -/
def expand (cook : Bool) (ch : Byte) : List Byte :=
  if cook = true ∧ ch = 10 then [13, 10] else [ch]

/-- What the tty sees of a call: the bytes that a write delivered, or a break. -/
def Call.items : Call → List (Item Byte)
  | .write _ bytes rv => (bytes.take rv.toNat).map .data
  | .sendTTYBreak _ => [.signal]

def observed (calls : List Call) : List (Item Byte) := calls.flatMap Call.items

/-! What one descriptor sees. -/

def Call.fd : Call → ℤ
  | .write fd _ _ => fd
  | .sendTTYBreak fd => fd

def seenOn (fd : ℤ) (calls : List Call) : List (Item Byte) :=
  calls.flatMap fun c => if c.fd = fd then c.items else []

/-! ### One descriptor -/

theorem seenOn_append (fd : ℤ) (calls more : List Call) :
    seenOn fd (calls ++ more) = seenOn fd calls ++ seenOn fd more := List.flatMap_append

theorem seenOn_of_fd {fd : ℤ} {calls : List Call} (h : ∀ c ∈ calls, c.fd = fd) :
    seenOn fd calls = observed calls ∧ ∀ fd', fd' ≠ fd → seenOn fd' calls = [] := by
  constructor
  · exact List.flatMap_congr fun c hc => if_pos (h c hc)
  · intro fd' hfd
    rw [seenOn, List.flatMap_eq_nil_iff]
    exact fun c hc => if_neg fun heq => hfd (heq.symm.trans (h c hc))

/-- More calls, all on one descriptor. -/
def MoreOn (devout : ℤ) (calls calls' : List Call) : Prop :=
  ∃ more, calls' = calls ++ more ∧ ∀ c ∈ more, c.fd = devout

theorem MoreOn.refl (devout : ℤ) (calls : List Call) : MoreOn devout calls calls :=
  ⟨[], by simp, fun _ h => absurd h List.not_mem_nil⟩

theorem MoreOn.trans {devout : ℤ} {calls calls' calls'' : List Call}
    (h : MoreOn devout calls calls') (h' : MoreOn devout calls' calls'') :
    MoreOn devout calls calls'' := by
  obtain ⟨more, hcalls, hmore⟩ := h
  obtain ⟨more', hcalls', hmore'⟩ := h'
  refine ⟨more ++ more', by rw [hcalls', hcalls, List.append_assoc], fun c hc => ?_⟩
  rcases List.mem_append.mp hc with hc | hc
  · exact hmore c hc
  · exact hmore' c hc

/-- What is seen of such calls, the descriptor sees, and no other. -/
theorem MoreOn.seenOn_iff {devout : ℤ} {calls calls' : List Call} (h : MoreOn devout calls calls')
    (is : List (Item Byte)) :
    seenOn devout calls' = seenOn devout calls ++ is ↔ observed calls' = observed calls ++ is := by
  obtain ⟨more, rfl, hmore⟩ := h
  have hobs : observed (calls ++ more) = observed calls ++ observed more := List.flatMap_append
  rw [seenOn_append, (seenOn_of_fd hmore).1, hobs, List.append_right_inj, List.append_right_inj]

theorem MoreOn.other {devout : ℤ} {calls calls' : List Call} (h : MoreOn devout calls calls')
    {fd : ℤ} (hfd : fd ≠ devout) : seenOn fd calls' = seenOn fd calls := by
  obtain ⟨more, rfl, hmore⟩ := h
  rw [seenOn_append, (seenOn_of_fd hmore).2 fd hfd, List.append_nil]

/-- More calls, all on one descriptor, for which `PutChar` is started. -/
def Adds (devout : ℤ) (s s' : State) : Prop :=
  s'.pcDev = s.pcDev ∧ MoreOn devout s.calls s'.calls

theorem Adds.refl (devout : ℤ) (s : State) : Adds devout s s := ⟨rfl, .refl devout s.calls⟩

theorem Adds.trans {devout : ℤ} {s s' s'' : State} (h : Adds devout s s') (h' : Adds devout s' s'') :
    Adds devout s s'' :=
  ⟨h'.1.trans h.1, h.2.trans h'.2⟩

section Adds

variable (write : ℕ → ℕ → ℤ) {devout : ℤ}

theorem putCharFlush_adds {s : State} (hdev : s.pcDev = devout) :
    Adds devout s (putCharFlush write s).2 := by
  have hwrite (rv : ℤ) (pcRv : ℤ) (buf : List Byte) : Adds devout s
      { s with pcRv := pcRv, pcBuf := buf, calls := s.calls ++ [.write s.pcDev s.pcBuf rv] } :=
    ⟨rfl, _, rfl, by simp [Call.fd, hdev]⟩
  unfold putCharFlush
  split
  · exact Adds.refl devout s
  · dsimp only [State.issueWrite]
    split
    · exact hwrite _ _ _
    · split <;> exact hwrite _ _ _

theorem putChar_adds (ch : Byte) {s : State} (hdev : s.pcDev = devout) :
    Adds devout s (putChar write ch s).2 := by
  have hflush := putCharFlush_adds write hdev
  unfold putChar
  by_cases hfull : pcLen ≤ s.pcBuf.length
  · rw [if_pos hfull]
    dsimp only
    split <;> exact hflush
  · rw [if_neg hfull]
    exact Adds.refl devout s

theorem filterChar_adds (cook : Bool) (ch : Byte) {s : State} (hdev : s.pcDev = devout) :
    Adds devout s (filterChar write cook devout ch s).2 := by
  have hput := putChar_adds write 13 hdev
  unfold filterChar
  split
  · split
    · exact Adds.refl devout s
    · split
      · exact hput
      · exact Adds.refl devout s
  · split
    · exact ⟨rfl, [.sendTTYBreak devout], rfl, by simp [Call.fd]⟩
    · exact Adds.refl devout s

theorem flushLoop_adds (cook : Bool) (buf : List Byte) (e : ℤ) {s : State} (hdev : s.pcDev = devout) :
    MoreOn devout s.calls (flushLoop write cook devout buf e s).2.calls := by
  have hend {s s' : State} (h : Adds devout s s') (hdev : s.pcDev = devout) :
      MoreOn devout s.calls (putCharEnd write s').2.calls :=
    (h.trans (putCharFlush_adds write (h.1.trans hdev))).2
  induction buf generalizing e s with
  | nil => exact hend (Adds.refl devout s) hdev
  | cons ch buf ih =>
      have hfilter := filterChar_adds write cook ch hdev
      rw [flushLoop]
      rcases hf : filterChar write cook devout ch s with ⟨_ | _, s₁⟩ <;> rw [hf] at hfilter
      · exact hfilter.2.trans (ih (e + 1) (hfilter.1.trans hdev))
      · have hput := hfilter.trans (putChar_adds write ch (hfilter.1.trans hdev))
        dsimp only
        rcases hp : putChar write ch s₁ with ⟨_ | _, s₂⟩ <;> rw [hp] at hput
        · exact hend hput hdev
        · exact hput.2.trans (ih e (hput.1.trans hdev))

/-- The filter makes its calls on its device. -/
theorem flushdata_adds (o : Options) (buf : List Byte) (s : State) :
    MoreOn devout s.calls (flushdata write o devout buf s).2.calls := by
  have hwrite : MoreOn devout s.calls (s.issueWrite write devout buf).2.calls :=
    ⟨_, rfl, by simp [Call.fd]⟩
  unfold flushdata
  split
  · exact hwrite
  · split
    · exact hwrite
    · exact flushLoop_adds write o.cook buf 0 rfl

theorem filterChunks_adds (o : Options) (chunks : List (List Byte)) (s : State) :
    MoreOn devout s.calls (filterChunks (flushdata write o devout) chunks s).2.calls := by
  induction chunks generalizing s with
  | nil => exact .refl devout s.calls
  | cons buf chunks ih => exact (flushdata_adds write o buf s).trans (ih _)

end Adds

/-! ### One chunk, all writes complete -/

section Complete

variable {write : ℕ → ℕ → ℤ} (hw : ∀ k n, write k n = n)
include hw

theorem putCharFlush_complete (s : State) :
    ∃ calls, putCharFlush write s = (true, { s with pcBuf := [], calls := calls }) ∧
      observed calls = observed s.calls ++ s.pcBuf.map .data := by
  unfold putCharFlush
  by_cases hbuf : s.pcBuf = []
  · rw [if_pos hbuf, hbuf]
    exact ⟨s.calls, by rw [← hbuf], by simp⟩
  · rw [if_neg hbuf]
    have hpos : ¬((s.pcBuf.length : ℤ) ≤ 0) := by
      have := List.length_pos_iff.mpr hbuf
      omega
    simp only [State.issueWrite, hw, hpos, if_false, lt_irrefl]
    refine ⟨_, rfl, ?_⟩
    simp [observed, Call.items]

/-- What is observed once the buffer is written out. -/
theorem putChar_complete (ch : Byte) (s : State) (is : List (Item Byte)) :
    ∃ buf calls, putChar write ch s =
        (true, { s with pcBuf := buf, calls := calls, pcRv := s.pcRv + 1 }) ∧
      observed calls ++ delayed pcLen buf is =
        observed s.calls ++ delayed pcLen s.pcBuf (.data ch :: is) := by
  unfold putChar
  by_cases hfull : pcLen ≤ s.pcBuf.length
  · obtain ⟨calls, hflush, hobs⟩ := putCharFlush_complete hw s
    rw [if_pos hfull, hflush]
    refine ⟨[ch], calls, rfl, ?_⟩
    rw [hobs, delayed, if_pos hfull, List.append_assoc]
  · rw [if_neg hfull]
    refine ⟨s.pcBuf ++ [ch], s.calls, rfl, ?_⟩
    rw [delayed, if_neg hfull]

/-- The decoder's step on one character: it is taken up by the escape, or put
behind what the cooked mode adds. -/
theorem filterChar_complete (cook : Bool) (devout : ℤ) (ch : Byte) (s : State) (buf : List Byte) :
    let r := filterChar write cook devout ch s
    let is := streamCode.decode (expand cook) r.2.esc buf
    r.2.esc = streamCode.pending s.esc [ch] ∧
      observed r.2.calls ++ delayed pcLen r.2.pcBuf (if r.1 then .data ch :: is else is) =
        observed s.calls ++
          delayed pcLen s.pcBuf (streamCode.decode (expand cook) s.esc (ch :: buf)) ∧
      (cook = false → r.2.pcRv = s.pcRv) := by
  unfold filterChar
  cases hs : s.esc with
  | false =>
      by_cases hch : ch = 92
      · subst hch
        exact ⟨rfl, rfl, fun _ => rfl⟩
      have hesc : ¬ch = streamCode.esc := hch
      -- the carriage return is put here, the newline by the caller
      by_cases hcook : cook = true ∧ ch = 10
      · obtain ⟨b, calls, hp, hobs⟩ := putChar_complete hw 13 s
          (.data ch :: streamCode.decode (expand cook) false buf)
        simp only [if_true, if_neg hch, if_pos hcook, hp]
        refine ⟨?_, ?_, fun hc => absurd hc (by simp [hcook.1])⟩
        · rw [hs, EscapeCode.pending, decide_eq_false hesc]
          rfl
        · rw [hs, hobs, EscapeCode.decode, if_neg hesc, expand, if_pos hcook, hcook.2]
          rfl
      · simp only [if_true, if_neg hch, if_neg hcook]
        refine ⟨?_, ?_, fun _ => trivial⟩
        · rw [hs, EscapeCode.pending, decide_eq_false hesc]
          rfl
        · rw [hs, EscapeCode.decode, if_neg hesc, expand, if_neg hcook]
          rfl
  | true =>
      by_cases hch : ch = 98
      · subst hch
        refine ⟨rfl, ?_, fun _ => rfl⟩
        show observed (s.calls ++ [.sendTTYBreak devout]) ++ _ = _
        simp [observed, Call.items, EscapeCode.decode, streamCode, delayed, State.sendTTYBreak]
      · have hcmd : ¬ch = streamCode.command := hch
        simp only [Bool.true_eq_false, if_false, if_neg hch]
        refine ⟨rfl, ?_, fun _ => trivial⟩
        rw [EscapeCode.decode, if_neg hcmd]
        rfl

/-- The loop sends what a delaying writer makes of the decoded characters, and
counts every character it reads. -/
theorem flushLoop_complete (cook : Bool) (devout : ℤ) (buf : List Byte) (e : ℤ) (s : State) :
    let r := flushLoop write cook devout buf e s
    r.2.esc = streamCode.pending s.esc buf ∧
      observed r.2.calls = observed s.calls ++
        delayed pcLen s.pcBuf (streamCode.decode (expand cook) s.esc buf) ∧
      (cook = false → r.1 = s.pcRv + e + buf.length) := by
  induction buf generalizing e s with
  | nil =>
      obtain ⟨calls, hflush, hobs⟩ := putCharFlush_complete hw s
      simp only [flushLoop, putCharEnd, hflush]
      refine ⟨by cases s.esc <;> rfl, ?_, fun _ => by simp⟩
      rw [hobs]
      cases s.esc <;> rfl
  | cons ch buf ih =>
      obtain ⟨hesc, hobs, hrv⟩ := filterChar_complete hw cook devout ch s buf
      have hpend : streamCode.pending s.esc (ch :: buf) =
          streamCode.pending (streamCode.pending s.esc [ch]) buf :=
            streamCode.pending_append _ [ch] buf
      dsimp only at hesc hobs hrv ⊢
      rw [flushLoop, hpend, ← hesc, ← hobs]
      rcases hf : filterChar write cook devout ch s with ⟨_ | _, s₁⟩ <;> rw [hf] at hrv
      · obtain ⟨h₁, h₂, h₃⟩ := ih (e + 1) s₁
        refine ⟨h₁, h₂, fun hc => ?_⟩
        have hrv : s₁.pcRv = s.pcRv := hrv hc
        rw [h₃ hc, hrv, List.length_cons]
        push_cast
        omega
      · obtain ⟨b, calls, hp, hobs'⟩ := putChar_complete hw ch s₁
          (streamCode.decode (expand cook) s₁.esc buf)
        dsimp only
        rw [hp]
        obtain ⟨h₁, h₂, h₃⟩ := ih e { s₁ with pcBuf := b, calls := calls, pcRv := s₁.pcRv + 1 }
        refine ⟨h₁, h₂.trans hobs', fun hc => ?_⟩
        have hrv : s₁.pcRv = s.pcRv := hrv hc
        rw [h₃ hc, List.length_cons, hrv]
        push_cast
        omega

/-! ### A stream in chunks -/

variable {o : Options} (ht : o.transparent = false) {devout : ℤ} (hd : devout ≠ 1)
include ht hd

theorem flushdata_complete (buf : List Byte) (s : State) :
    let r := flushdata write o devout buf s
    r.2.esc = streamCode.pending s.esc buf ∧
      observed r.2.calls = observed s.calls ++
        delayed pcLen [] (streamCode.decode (expand o.cook) s.esc buf) ∧
      (o.cook = false → r.1 = buf.length) := by
  simp only [flushdata, ht, Bool.false_eq_true, if_false, hd]
  obtain ⟨h₁, h₂, h₃⟩ := flushLoop_complete hw o.cook devout buf 0 (putCharStart devout s)
  exact ⟨h₁, h₂, fun hc => by simpa [putCharStart] using h₃ hc⟩

theorem filterChunks_complete (chunks : List (List Byte)) (s : State) :
    let r := filterChunks (flushdata write o devout) chunks s
    observed r.2.calls = observed s.calls ++
        ((streamCode.decodeChunks (expand o.cook) s.esc chunks).map (delayed pcLen [])).flatten ∧
      (o.cook = false → r.1 = chunks.map fun buf => (buf.length : ℤ)) := by
  induction chunks generalizing s with
  | nil => simp [filterChunks, EscapeCode.decodeChunks]
  | cons buf chunks ih =>
      obtain ⟨hesc, hobs, hrv⟩ := flushdata_complete hw ht hd buf s
      obtain ⟨hobs', hrv'⟩ := ih (flushdata write o devout buf s).2
      dsimp only at hesc hobs hrv hobs' hrv' ⊢
      rw [filterChunks]
      refine ⟨?_, fun hc => ?_⟩
      · rw [hobs', hobs, hesc, EscapeCode.decodeChunks, List.map_cons, List.flatten_cons,
          List.append_assoc]
      · rw [List.map_cons, ← hrv hc, ← hrv' hc]

/-- With complete writes the stream is seen as it decodes, but for the order in a chunk. -/
theorem filterChunks_seenOn (chunks : List (List Byte)) :
    seenOn devout (filterChunks (flushdata write o devout) chunks State.start).2.calls =
      ((streamCode.decodeChunks (expand o.cook) false chunks).map (delayed pcLen [])).flatten := by
  have hobs := (filterChunks_complete hw ht hd chunks State.start).1
  exact ((filterChunks_adds write o chunks State.start).seenOn_iff _).mpr hobs

/-- **The order of breaks.** With complete writes, what the tty sees is the
stream decoded from left to right if and only if in no chunk, as it is decoded,
a break comes behind data of the same chunk. -/
theorem break_order_iff (chunks : List (List Byte)) :
    let calls := (filterChunks (flushdata write o devout) chunks State.start).2.calls
    (seenOn devout calls = streamCode.decode (expand o.cook) false chunks.flatten ↔
      ∀ is ∈ streamCode.decodeChunks (expand o.cook) false chunks, SignalsFirst is) ∧
      ∀ fd, fd ≠ devout → seenOn fd calls = [] := by
  refine ⟨?_, fun fd hfd => (filterChunks_adds write o chunks State.start).other hfd⟩
  rw [filterChunks_seenOn hw ht hd, ← EscapeCode.flatten_decodeChunks]
  exact flatten_delayed_iff pcLen _

end Complete

/-- A break in a chunk of its own keeps its place. -/
theorem break_order_two_chunks :
    seenOn 3 (filterChunks (flushdata (fun _ n => n) ⟨false, false⟩ 3) [text "a", text "\\b"]
      State.start).2.calls = [.data 97, .signal] :=
  (break_order_iff (fun _ _ => rfl) rfl (by decide) [text "a", text "\\b"]).1.mpr <| by
    intro is his
    obtain rfl | rfl : is = [.data 97] ∨ is = [.signal] := by
      simpa [EscapeCode.decodeChunks, EscapeCode.decode, EscapeCode.pending, streamCode, expand,
        text]
        using his
    · exact signalsFirst_of_not_mem (by simp)
    · exact signalsFirst_signal.mpr (signalsFirst_of_not_mem (by simp))

/-- The same bytes in one chunk: the break overtakes the data. -/
theorem break_overtakes :
    let seen := seenOn 3 (filterChunks (flushdata (fun _ n => n) ⟨false, false⟩ 3)
      [text "a\\b"] State.start).2.calls
    seen = [.signal, .data 97] ∧
      seen ≠ streamCode.decode (expand false) false [text "a\\b"].flatten := by
  decide

end XinuConsole.TtyConnect
