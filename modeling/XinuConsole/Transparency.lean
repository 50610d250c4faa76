import XinuConsole.Console
import XinuConsole.TtyConnect

/-!
A console session from the keyboard to the serial line: the filter of
xinu-console at one end of the network and that of tty-connect at the other.
-/

namespace XinuConsole

open Lib Connectto

theorem expand_raw : TtyConnect.expand false = fun ch => [ch] := by
  funext ch
  exact if_neg fun h => Bool.false_ne_true h.1

/-- A break that was sent is seen. -/
theorem signal_mem_seenOn {fd : ℤ} {calls : List TtyConnect.Call}
    (h : .sendTTYBreak fd ∈ calls) : .signal ∈ TtyConnect.seenOn fd calls :=
  List.mem_flatMap.mpr ⟨_, h, by simp [TtyConnect.Call.fd, TtyConnect.Call.items]⟩

/-- Chunks of a stream that decodes to data only are passed on in order. -/
theorem seenOn_of_data {write : ℕ → ℕ → ℤ} (hw : ∀ k n, write k n = n) {devout : ℤ}
    (hd : devout ≠ 1) (chunks : List (List Byte)) (data : List Byte)
    (hdata : streamCode.decode (TtyConnect.expand false) false chunks.flatten =
      data.map .data) :
    TtyConnect.seenOn devout (filterChunks (TtyConnect.flushdata write ⟨false, false⟩ devout) chunks
      TtyConnect.State.start).2.calls = data.map .data := by
  have hnone : ∀ is ∈ streamCode.decodeChunks (TtyConnect.expand false) false chunks,
      SignalsFirst is := by
    intro is his
    apply signalsFirst_of_not_mem
    intro hsignal
    have hmem : Item.signal ∈ streamCode.decode (TtyConnect.expand false) false
        chunks.flatten := by
      rw [← EscapeCode.flatten_decodeChunks]
      exact List.mem_flatten.mpr ⟨is, his, hsignal⟩
    rw [hdata] at hmem
    simp at hmem
  rw [TtyConnect.filterChunks_seenOn hw rfl hd, (flatten_delayed_iff _ _).mpr hnone,
    EscapeCode.flatten_decodeChunks, hdata]

/-- **Transparency of a console session.** Keyboard bytes other than 0x00 and
0x80, read in any chunks and sent over the network, which cuts the stream into
any other chunks, arrive on the tty masked and in order, and nothing arrives
elsewhere; no break is sent, and neither session ends. -/
theorem console_transparent (o : Console.Outside) (write : ℕ → ℕ → ℤ)
    (ho : ∀ k n, o.write k n = n) (hw : ∀ k n, write k n = n) {devnet devtty : ℤ}
    (hnet : devnet ≠ 1) (htty : devtty ≠ 1) (pieces chunks stream : List (List Byte))
    (hkeys : ∀ b ∈ chunks.flatten, b ≠ 0 ∧ b ≠ 0x80)
    (hstream : stream.flatten = Console.sentOn devnet (filterChunks
      (Console.flushdata o false devnet) chunks (Console.State.start pieces)).2.calls) :
    let net := Console.flushdata o false devnet
    let tty := TtyConnect.flushdata write ⟨false, false⟩ devtty
    let sent := (filterChunks net chunks (Console.State.start pieces)).2.calls
    let calls := (filterChunks tty stream TtyConnect.State.start).2.calls
    TtyConnect.seenOn devtty calls = (chunks.flatten.map (· &&& 0x7F)).map .data ∧
      (∀ fd, fd ≠ devtty → TtyConnect.seenOn fd calls = []) ∧
      (∀ fd, fd ≠ devnet → Console.sentOn fd sent = []) ∧
      (∀ fd, .sendTTYBreak fd ∉ calls) ∧
      ((filterChunks net chunks (Console.State.start pieces)).1 =
        chunks.map fun buf => (buf.length : ℤ)) ∧
      ((filterChunks tty stream TtyConnect.State.start).1 =
        stream.map fun buf => (buf.length : ℤ)) ∧
      ((∀ buf ∈ chunks, buf ≠ []) → (session net chunks (Console.State.start pieces)).1 = true) ∧
      ((∀ buf ∈ stream, buf ≠ []) → (session tty stream TtyConnect.State.start).1 = true) := by
  intro net tty sent calls
  obtain ⟨hlen, hsent⟩ :=
    Console.filterChunks_complete ho hnet hkeys (Console.State.start pieces)
  obtain ⟨-, hlen'⟩ := TtyConnect.filterChunks_complete hw (o := ⟨false, false⟩) rfl htty stream
    TtyConnect.State.start
  have hcode : stream.flatten = streamCode.encode (chunks.flatten.map (· &&& 0x7F)) := by
    rw [hstream]
    exact hsent.own
  have hseen : TtyConnect.seenOn devtty calls = (chunks.flatten.map (· &&& 0x7F)).map .data := by
    refine seenOn_of_data hw htty stream _ ?_
    rw [hcode, expand_raw]
    exact EscapeCode.decode_encode _ _
  have hother : ∀ fd, fd ≠ devtty → TtyConnect.seenOn fd calls = [] := fun fd hfd =>
    (TtyConnect.filterChunks_adds write ⟨false, false⟩ stream TtyConnect.State.start).other hfd
  refine ⟨hseen, hother, fun fd hfd => hsent.other hfd, fun fd hbreak => ?_, hlen, hlen' rfl,
    fun hne => ?_, fun hne => ?_⟩
  · have hmem := signal_mem_seenOn hbreak
    by_cases hfd : fd = devtty
    · rw [hfd, hseen] at hmem
      simp at hmem
    · rw [hother fd hfd] at hmem
      simp at hmem
  · rw [session_of_lengths hne hlen]
  · rw [session_of_lengths hne (hlen' rfl)]

/-- A backslash at the end of one chunk and a `b` at the start of the next are
no break, although the network cuts the stream inside the escape. -/
theorem console_transparent_backslash_b :
    TtyConnect.seenOn 3 (filterChunks (TtyConnect.flushdata (fun _ n => n) ⟨false, false⟩ 3)
      [[97, 92], [92, 98]] TtyConnect.State.start).2.calls = [.data 97, .data 92, .data 98] := by
  have hkeys : ∀ b ∈ [[97, 92], [98]].flatten, b ≠ (0 : Byte) ∧ b ≠ 0x80 := by simp
  have hstream : [[97, 92], [92, 98]].flatten = Console.sentOn 4 (filterChunks
      (Console.flushdata ⟨fun _ n => n, fun _ => 0, none⟩ false 4) [[97, 92], [98]]
      (Console.State.start [])).2.calls := by
    rw [(Console.filterChunks_complete (fun _ _ => rfl) (by decide) hkeys _).2.own]
    decide
  exact (console_transparent _ (fun _ n => n) (fun _ _ => rfl) (fun _ _ => rfl) (by decide)
    (by decide) [] [[97, 92], [98]] [[97, 92], [92, 98]] hkeys hstream).1

end XinuConsole
