import XinuConsole.Relay.Link
import XinuConsole.Relay.Typing
import XinuConsole.TtyConnect

/-!
A whole session: xinu-console and tty-connect, each in its `connectto`, at the ends
of one connection, in both directions at once.
-/

namespace XinuConsole.TtyConnect

open Lib Connectto

/-- **A chunk** for the tty, with complete writes: what the tty sees of it is what it
decodes to, but for the order of data and breaks. -/
theorem flushdata_seen {write : ℕ → ℕ → ℤ} (hw : ∀ k n, write k n = n) (cook : Bool) {devout : ℤ}
    (hd : devout ≠ 1) (buf : List Byte) (s : State) :
    let r := flushdata write ⟨false, cook⟩ devout buf s
    let items := streamCode.decode (expand cook) s.esc buf
    r.2.esc = streamCode.pending s.esc buf ∧
      payload (seenOn devout r.2.calls) = payload (seenOn devout s.calls) ++ payload items ∧
      (seenOn devout r.2.calls).count .signal =
        (seenOn devout s.calls).count .signal + items.count .signal ∧
      ∀ fd, fd ≠ devout → seenOn fd r.2.calls = seenOn fd s.calls := by
  intro r items
  obtain ⟨hesc, hobs, -⟩ := flushdata_complete hw (o := ⟨false, cook⟩) rfl hd buf s
  have hcalls : ∃ more, r.2.calls = s.calls ++ more ∧ ∀ c ∈ more, c.fd = devout := by
    have hr : r = flushLoop write cook devout buf 0 (putCharStart devout s) := by
      simp only [r, flushdata, Bool.false_eq_true, if_false, if_neg hd]
    rw [hr]
    exact flushLoop_adds write cook buf 0 rfl
  obtain ⟨more, hcalls, hmore⟩ := hcalls
  obtain ⟨hown, hother⟩ := seenOn_of_fd hmore
  have hseen : observed more = delayed pcLen [] items := by
    have hobs : observed r.2.calls = observed s.calls ++ delayed pcLen [] items := hobs
    rw [hcalls, observed, List.flatMap_append] at hobs
    exact List.append_cancel_left hobs
  refine ⟨hesc, ?_, ?_, fun fd hfd => ?_⟩
  · rw [hcalls, seenOn_append, payload_append, hown, hseen, payload_delayed, List.nil_append]
  · rw [hcalls, seenOn_append, List.count_append, hown, hseen, count_signal_delayed]
  · rw [hcalls, seenOn_append, hother fd hfd, List.append_nil]

end XinuConsole.TtyConnect

namespace XinuConsole.Relay

open Lib Connectto

/-- The filter of xinu-console together with what was typed so far. -/
def keyboardFilter (o : Console.Outside) (fd : ℤ) (buf : List Byte)
    (f : Console.State × List (Item Byte)) : ℤ × (Console.State × List (Item Byte)) :=
  let (rv, s) := Console.flushdata o false fd buf f.1
  (rv, s, if fd = 1 then f.2 else f.2 ++ Console.said o fd (f.1.loaded buf))

/-- A session without `-t`: the arguments that the two programs give `connectto`. -/
def session (o : Console.Outside) (write : ℕ → ℕ → ℤ) (cook : Bool)
    (devnet devtty consoleFlush ttyFlush : ℤ) :
    Link (Console.State × List (Item Byte)) TtyConnect.State where
  near := ⟨devnet, keyboardFilter o, consoleFlush, true⟩
  far := ⟨devtty, TtyConnect.flushdata write ⟨false, cook⟩, ttyFlush, false⟩
  nearSent f := Console.sentOn devnet f.1.calls
  farSent g := payload (TtyConnect.seenOn 1 g.calls)
  nextInput f :=
    match f.1.pieces with
    | [] => none
    | p :: ps => some (p, { f.1 with pieces := ps }, f.2)

/-- A console whose writes are all complete. -/
def willing : Console.Outside := ⟨fun _ n => n, fun _ => 0, none⟩

/-- What was sent and not yet read. -/
def underway (sent taken : List Byte) : List Byte := sent.drop taken.length

theorem append_underway {sent taken : List Byte} (h : taken <+: sent) :
    taken ++ underway sent taken = sent := by
  obtain ⟨rest, rfl⟩ := h
  simp [underway]

section Session

variable {o : Console.Outside} (ho : ∀ k n, o.write k n = n) {write : ℕ → ℕ → ℤ}
  (hw : ∀ k n, write k n = n) {cook : Bool} {devnet devtty consoleFlush ttyFlush : ℤ}
  (hnet : devnet ≠ 1) (htty : devtty ≠ 1)

/-- What the keyboard filter has sent and shown, of what was typed and what came
from the connection. -/
def NearSays (devnet : ℤ) (fromNet : List Byte) (f : Console.State × List (Item Byte)) : Prop :=
  Console.sentOn devnet f.1.calls = streamCode.encodeItems f.2 ∧
    Console.sentOn 1 f.1.calls = fromNet.map (· &&& 0x7F)

/-- What the tty has seen, of the stream that came in, and what was sent back. -/
structure FarSays (cook : Bool) (devtty : ℤ) (fromNet fromTty : List Byte) (g : TtyConnect.State) :
    Prop where
  esc : g.esc = streamCode.pending false fromNet
  data : payload (TtyConnect.seenOn devtty g.calls) =
    payload (streamCode.decode (TtyConnect.expand cook) false fromNet)
  breaks : (TtyConnect.seenOn devtty g.calls).count .signal =
    (streamCode.decode (TtyConnect.expand cook) false fromNet).count .signal
  back : payload (TtyConnect.seenOn 1 g.calls) = fromTty

include ho in
theorem console_screen (f : Console.State × List (Item Byte)) (buf : List Byte) :
    let r := (keyboardFilter o 1 buf f).2
    Console.sentOn 1 r.1.calls = Console.sentOn 1 f.1.calls ++ buf.map (· &&& 0x7F) ∧
      (∀ fd, fd ≠ 1 → Console.sentOn fd r.1.calls = Console.sentOn fd f.1.calls) ∧ r.2 = f.2 := by
  have hcalls : (keyboardFilter o 1 buf f).2.1.calls =
      f.1.calls ++ [.write 1 (buf.map (· &&& 0x7F)) buf.length] := by
    simp [keyboardFilter, Console.flushdata, Console.State.issueWrite, ho]
  refine ⟨?_, fun fd hfd => ?_, rfl⟩
  · rw [hcalls, Console.sentOn_append]
    simp [Console.sentOn, Console.Call.sentOn]
  · rw [hcalls, Console.sentOn_append]
    simp [Console.sentOn, Console.Call.sentOn, hfd.symm]

include ho hnet in
theorem console_keyboard (f : Console.State × List (Item Byte)) (buf : List Byte) :
    let r := (keyboardFilter o devnet buf f).2
    ∃ items, r.2 = f.2 ++ items ∧ Console.sentOn devnet r.1.calls =
        Console.sentOn devnet f.1.calls ++ streamCode.encodeItems items ∧
      ∀ fd, fd ≠ devnet → Console.sentOn fd r.1.calls = Console.sentOn fd f.1.calls := by
  have hcalls : (keyboardFilter o devnet buf f).2.1 = (Console.flush2net o devnet buf f.1).2 := by
    simp [keyboardFilter, Console.flushdata, hnet]
  obtain ⟨hown, hother⟩ := Console.flush2net_said ho devnet buf f.1
  refine ⟨Console.said o devnet (f.1.loaded buf), if_neg hnet, ?_, fun fd hfd => ?_⟩
  · rw [hcalls]
    exact hown
  · rw [hcalls]
    exact hother fd hfd

include hw in
theorem tty_back (cook : Bool) (g : TtyConnect.State) (buf : List Byte) :
    let r := (TtyConnect.flushdata write ⟨false, cook⟩ 1 buf g).2
    TtyConnect.seenOn 1 r.calls = TtyConnect.seenOn 1 g.calls ++ buf.map .data ∧
      (∀ fd, fd ≠ 1 → TtyConnect.seenOn fd r.calls = TtyConnect.seenOn fd g.calls) ∧
      r.esc = g.esc := by
  have hr : (TtyConnect.flushdata write ⟨false, cook⟩ 1 buf g).2 =
      { g with calls := g.calls ++ [.write 1 buf buf.length] } := by
    simp [TtyConnect.flushdata, TtyConnect.State.issueWrite, hw]
  rw [hr]
  refine ⟨?_, fun fd hfd => ?_, rfl⟩
  · simp [TtyConnect.seenOn, TtyConnect.Call.fd, TtyConnect.Call.items]
  · simp [TtyConnect.seenOn, TtyConnect.Call.fd, hfd.symm]

include ho hw hnet in
theorem session_wired :
    (session o write cook devnet devtty consoleFlush ttyFlush).Wired where
  near_grows fd buf f := by
    show Console.sentOn devnet f.1.calls <+: Console.sentOn devnet (keyboardFilter o fd buf f).2.1.calls
    by_cases hfd : fd = 1
    · subst hfd
      rw [(console_screen ho f buf).2.1 devnet hnet]
    · obtain ⟨items, -, hown, hother⟩ := console_keyboard ho hfd f buf
      by_cases heq : devnet = fd
      · subst heq
        exact ⟨_, hown.symm⟩
      · rw [hother devnet heq]
  near_screen buf f := (console_screen ho f buf).2.1 devnet hnet
  near_input f buf f' h := by
    simp only [session] at h ⊢
    cases hp : f.1.pieces with
    | nil => simp [hp] at h
    | cons p ps =>
        simp only [hp, Option.some.injEq, Prod.mk.injEq] at h
        obtain ⟨-, rfl⟩ := h
        rfl
  far_grows fd buf g := by
    show payload (TtyConnect.seenOn 1 g.calls) <+:
      payload (TtyConnect.seenOn 1 (TtyConnect.flushdata write ⟨false, cook⟩ fd buf g).2.calls)
    by_cases hfd : fd = 1
    · subst hfd
      rw [(tty_back hw cook g buf).1, payload_append]
      exact List.prefix_append _ _
    · rw [(TtyConnect.flushdata_seen hw cook hfd buf g).2.2.2 1 (Ne.symm hfd)]

variable {pieces : List (List Byte)} {labels : List (Party × Event)}
  {s : Ends (Console.State × List (Item Byte)) TtyConnect.State}
  (h : Run (session o write cook devnet devtty consoleFlush ttyFlush).Step
    (Link.begin (Console.State.start pieces, []) TtyConnect.State.start) labels s)

include ho hnet h in
theorem near_says : NearSays devnet (bytesRead .fromDev s.near.past) s.near.filter := by
  refine near_invariant (J := NearSays devnet) ?_ ?_ ?_ h ⟨rfl, rfl⟩
  · rintro fromNet f b buf ⟨hsent, hshown⟩
    obtain ⟨hscreen, hother, hitems⟩ := console_screen ho f (b :: buf)
    refine ⟨(hother devnet hnet).trans (hsent.trans ?_), hscreen.trans ?_⟩
    · exact congrArg _ hitems.symm
    · rw [hshown, List.map_append]
  · intro fromNet f buf f' hnext hf
    simp only [session] at hnext
    cases hp : f.1.pieces with
    | nil => simp [hp] at hnext
    | cons p ps =>
        simp only [hp, Option.some.injEq, Prod.mk.injEq] at hnext
        obtain ⟨-, rfl⟩ := hnext
        exact hf
  · intro fromNet f b buf f' hnext hf
    have hf' : NearSays devnet fromNet f' := by
      simp only [session] at hnext
      cases hp : f.1.pieces with
      | nil => simp [hp] at hnext
      | cons p ps =>
          simp only [hp, Option.some.injEq, Prod.mk.injEq] at hnext
          obtain ⟨-, rfl⟩ := hnext
          exact hf
    obtain ⟨hsent, hshown⟩ := hf'
    obtain ⟨items, hitems, hown, hother⟩ := console_keyboard ho hnet f' (b :: buf)
    refine ⟨hown.trans ?_, (hother 1 (Ne.symm hnet)).trans hshown⟩
    rw [hsent, ← streamCode.encodeItems_append]
    exact congrArg _ hitems.symm

include hw htty h in
theorem far_says : FarSays cook devtty (bytesRead .fromStdin s.far.past)
    (bytesRead .fromDev s.far.past) s.far.filter := by
  refine far_invariant (K := FarSays cook devtty) ?_ ?_ h ⟨rfl, rfl, rfl, rfl⟩
  · intro fromNet fromTty g b buf hg
    obtain ⟨hback, hother, hesc⟩ := tty_back hw cook g (b :: buf)
    have hseen := hother devtty htty
    refine ⟨hesc.trans hg.esc, ?_, ?_, ?_⟩
    · exact (congrArg payload hseen).trans hg.data
    · exact (congrArg (List.count .signal) hseen).trans hg.breaks
    · refine (congrArg payload hback).trans ?_
      rw [payload_append, hg.back, payload_map_data]
  · intro fromNet fromTty g b buf hg
    obtain ⟨hesc, hdata, hbreaks, hother⟩ := TtyConnect.flushdata_seen hw cook htty (b :: buf) g
    refine ⟨hesc.trans ?_, hdata.trans ?_, hbreaks.trans ?_, ?_⟩
    · rw [streamCode.pending_append, hg.esc]
    · rw [streamCode.decode_append, payload_append, hg.data, hg.esc]
    · rw [streamCode.decode_append, List.count_append, hg.breaks, hg.esc]
    · exact (congrArg payload (hother 1 (Ne.symm htty))).trans hg.back

theorem expand_esc (cook : Bool) : TtyConnect.expand cook streamCode.esc = [streamCode.esc] :=
  if_neg fun h => absurd h.2 (by decide)

include ho hw hnet in
/-- What tty-connect has read and what is underway to it, decoded, is what was typed. -/
theorem typed_decoded
    (h : Run (session o write cook devnet devtty consoleFlush ttyFlush).Step
      (Link.begin (Console.State.start pieces, []) TtyConnect.State.start) labels s) :
    streamCode.decode (TtyConnect.expand cook) false (bytesRead .fromStdin s.far.past) ++
        streamCode.decode (TtyConnect.expand cook)
          (streamCode.pending false (bytesRead .fromStdin s.far.past))
          (underway (Console.sentOn devnet s.near.filter.1.calls) (bytesRead .fromStdin s.far.past)) =
      s.near.filter.2.flatMap (Item.expand (TtyConnect.expand cook)) := by
  have hup := append_underway (link_wires (session_wired ho hw hnet) h).up
  have hnear := near_says ho hnet h
  rw [← streamCode.decode_append]
  exact (congrArg _ (hup.trans hnear.1)).trans
    (streamCode.decode_encodeItems_expand (expand_esc cook) _)

include ho hw hnet htty in
/-- What the screen shows and what is underway to it is what came from the tty. -/
theorem shown_underway
    (h : Run (session o write cook devnet devtty consoleFlush ttyFlush).Step
      (Link.begin (Console.State.start pieces, []) TtyConnect.State.start) labels s) :
    Console.sentOn 1 s.near.filter.1.calls ++
        (underway (payload (TtyConnect.seenOn 1 s.far.filter.calls))
          (bytesRead .fromDev s.near.past)).map (· &&& 0x7F) =
      (bytesRead .fromDev s.far.past).map (· &&& 0x7F) := by
  have hdown := append_underway (link_wires (session_wired ho hw hnet) h).down
  have hfar := far_says hw htty h
  have hnear := near_says ho hnet h
  rw [← hfar.back]
  refine Eq.trans ?_ (congrArg (List.map (· &&& 0x7F)) hdown)
  rw [List.map_append]
  exact congrArg (· ++ _) hnear.2

include ho hw hnet htty in
/-- **Nothing is lost, doubled or changed** in a session whose writes are complete at both
ends, whatever the order of the two programs' steps and however the network cuts the
streams. What was typed is what the tty has seen and what is underway to it: the same
data in the same order, and as many breaks, which may come before data of their own
chunk. What came from the tty is, without its eighth bit, what the screen shows and what
is underway to it. -/
theorem session_conserves
    (h : Run (session o write cook devnet devtty consoleFlush ttyFlush).Step
      (Link.begin (Console.State.start pieces, []) TtyConnect.State.start) labels s) :
    let typed := s.near.filter.2.flatMap (Item.expand (TtyConnect.expand cook))
    let seen := TtyConnect.seenOn devtty s.far.filter.calls
    let up := streamCode.decode (TtyConnect.expand cook) s.far.filter.esc
      (underway (Console.sentOn devnet s.near.filter.1.calls) (bytesRead .fromStdin s.far.past))
    let shown := Console.sentOn 1 s.near.filter.1.calls
    let down := underway (payload (TtyConnect.seenOn 1 s.far.filter.calls))
      (bytesRead .fromDev s.near.past)
    payload seen ++ payload up = payload typed ∧
      seen.count .signal + up.count .signal = typed.count .signal ∧
      shown ++ down.map (· &&& 0x7F) = (bytesRead .fromDev s.far.past).map (· &&& 0x7F) := by
  intro typed seen up shown down
  have hfar := far_says hw htty h
  have hdecode : streamCode.decode (TtyConnect.expand cook) false
      (bytesRead .fromStdin s.far.past) ++ up = typed := by
    simp only [up, hfar.esc]
    exact typed_decoded ho hw hnet h
  refine ⟨?_, ?_, shown_underway ho hw hnet htty h⟩
  · rw [← hdecode, payload_append]
    exact congrArg (· ++ payload up) hfar.data
  · rw [← hdecode, List.count_append]
    exact congrArg (· + up.count .signal) hfar.breaks

/-- `hi` comes from the tty, and half of it has reached the screen. -/
theorem session_conserves_hi :
    ∃ s, Run (session willing (fun _ n => n) false 4 3 0 0).Step
        (Link.begin (Console.State.start [], []) TtyConnect.State.start)
        [(.far, .selected true false), (.far, .read (some (text "hi"))),
          (.near, .selected true false), (.near, .read (some (text "h")))] s ∧
      Console.sentOn 1 s.near.filter.1.calls ++
        (underway (payload (TtyConnect.seenOn 1 s.far.filter.calls))
          (bytesRead .fromDev s.near.past)).map (· &&& 0x7F) =
        (bytesRead .fromDev s.far.past).map (· &&& 0x7F) := by
  have hrun : ∃ s, Run (session willing (fun _ n => n) false 4 3 0 0).Step
      (Link.begin (Console.State.start [], []) TtyConnect.State.start)
      [(.far, .selected true false), (.far, .read (some (text "hi"))),
        (.near, .selected true false), (.near, .read (some (text "h")))] s := by
    refine ⟨_, .cons (.far rfl nofun) (.cons (.far rfl ?_) (.cons (.near rfl nofun)
      (.cons (.near rfl ?_) (.nil _))))⟩
    · rintro _ - hway
      simp [Phase.way] at hway
    · rintro _ ⟨⟩
      exact .inr ⟨rfl, show text "h" <+: text "hi" by decide⟩
  obtain ⟨s, hs⟩ := hrun
  exact ⟨s, hs, (session_conserves (fun _ _ => rfl) (fun _ _ => rfl) (by decide) (by decide) hs).2.2⟩

include ho hw hnet htty in
/-- **A session that ends**, with every write complete at both ends. When tty-connect has
read the end of its input, the tty has seen all data that was ever typed, in order, and
as many breaks; when xinu-console has read the end of the connection, the screen has
shown all that came from the tty, without its eighth bit. -/
theorem session_completes
    (h : Run (session o write cook devnet devtty consoleFlush ttyFlush).Step
      (Link.begin (Console.State.start pieces, []) TtyConnect.State.start) labels s) :
    let typed := s.near.filter.2.flatMap (Item.expand (TtyConnect.expand cook))
    let seen := TtyConnect.seenOn devtty s.far.filter.calls
    ((∃ rv, .flush .fromStdin (some []) rv ∈ s.far.past) →
      payload seen = payload typed ∧ seen.count .signal = typed.count .signal) ∧
    ((∃ rv, .flush .fromDev (some []) rv ∈ s.near.past) →
      Console.sentOn 1 s.near.filter.1.calls =
        (bytesRead .fromDev s.far.past).map (· &&& 0x7F)) := by
  intro typed seen
  have hwires := link_wires (session_wired ho hw hnet) h
  have hnone {sent taken : List Byte} (htaken : taken = sent) : underway sent taken = [] := by
    rw [htaken, underway, List.drop_length]
  refine ⟨fun ⟨rv, hmem⟩ => ?_, fun ⟨rv, hmem⟩ => ?_⟩
  · have hfar := far_says hw htty h
    have hup := hnone (hwires.upEnd rv hmem).1
    have hrest : ∀ esc, streamCode.decode (TtyConnect.expand cook) esc [] = [] := by
      rintro (_ | _) <;> rfl
    have hdecode := typed_decoded ho hw hnet h
    simp only [session] at hup
    rw [hup, hrest, List.append_nil] at hdecode
    exact ⟨hfar.data.trans (congrArg payload hdecode),
      hfar.breaks.trans (congrArg (List.count .signal) hdecode)⟩
  · have hdown := hnone (hwires.downEnd rv hmem).1
    have hshown := shown_underway ho hw hnet htty h
    simp only [session] at hdown
    rwa [hdown, List.map_nil, List.append_nil] at hshown

/-- An empty input: xinu-console shuts its side down, and tty-connect reads the end. -/
theorem session_completes_empty :
    ∃ s, Run (session willing (fun _ n => n) false 4 3 2 0).Step
        (Link.begin (Console.State.start [[]], []) TtyConnect.State.start)
        [(.near, .selected false true), (.near, .read (some [])), (.far, .selected false true),
          (.far, .read (some []))] s ∧
      payload (TtyConnect.seenOn 3 s.far.filter.calls) =
        payload (s.near.filter.2.flatMap (Item.expand (TtyConnect.expand false))) := by
  have hrun : ∃ s, (Run (session willing (fun _ n => n) false 4 3 2 0).Step
        (Link.begin (Console.State.start [[]], []) TtyConnect.State.start)
        [(.near, .selected false true), (.near, .read (some [])), (.far, .selected false true),
          (.far, .read (some []))] s) ∧ ∃ rv, .flush .fromStdin (some []) rv ∈ s.far.past := by
    refine ⟨_, .cons (.near rfl nofun) (.cons (.typed rfl rfl rfl) (.cons (.far rfl nofun)
      (.cons (.far rfl ?_) (.nil _)))), ⟨0, ?_⟩⟩
    · rintro _ ⟨⟩ -
      exact ⟨rfl, .inr (by decide)⟩
    · exact List.mem_singleton_self _
  obtain ⟨s, hs, hend⟩ := hrun
  exact ⟨s, hs, ((session_completes (fun _ _ => rfl) (fun _ _ => rfl) (by decide) (by decide) hs).1
    hend).1⟩

end Session

/-! ### With `-t` -/

/-- A session in which both programs only write what they read, as in a download: the
standard input of xinu-console is then a file. -/
def transparentSession (o : Console.Outside) (write : ℕ → ℕ → ℤ)
    (devnet devtty consoleFlush ttyFlush : ℤ) : Link Console.State TtyConnect.State where
  near := ⟨devnet, Console.flushdata o true, consoleFlush, true⟩
  far := ⟨devtty, TtyConnect.flushdata write ⟨true, false⟩, ttyFlush, false⟩
  nearSent f := Console.sentOn devnet f.calls
  farSent g := payload (TtyConnect.seenOn 1 g.calls)
  nextInput f :=
    match f.pieces with
    | [] => none
    | p :: ps => some (p, { f with pieces := ps })

theorem console_verbatim (o : Console.Outside) :
    Verbatim (Console.flushdata o true) fun fd f => Console.sentOn fd f.calls where
  own fd buf f := by
    simp [Console.flushdata, Console.State.issueWrite, Console.sentOn, Console.Call.sentOn]
  other fd fd' buf f hfd := by
    simp [Console.flushdata, Console.State.issueWrite, Console.sentOn, Console.Call.sentOn, hfd.symm]

theorem tty_verbatim (write : ℕ → ℕ → ℤ) :
    Verbatim (TtyConnect.flushdata write ⟨true, false⟩)
      fun fd g => payload (TtyConnect.seenOn fd g.calls) where
  own fd buf g := by
    simp [-List.map_take, TtyConnect.flushdata, TtyConnect.State.issueWrite, TtyConnect.seenOn,
      TtyConnect.Call.fd, TtyConnect.Call.items, payload_append]
  other fd fd' buf g hfd := by
    simp [TtyConnect.flushdata, TtyConnect.State.issueWrite, TtyConnect.seenOn, TtyConnect.Call.fd,
      hfd.symm]

/-- **A download.** Whatever the writes accept, what the tty has accepted is a first part
of the file, byte for byte; and it is the whole file once tty-connect has read the
end, if no write fell short. The same holds of what comes back. -/
theorem download_verbatim (o : Console.Outside) (write : ℕ → ℕ → ℤ)
    {devnet devtty consoleFlush ttyFlush : ℤ} (hnet : devnet ≠ 1) (htty : devtty ≠ 1)
    {pieces : List (List Byte)} {labels : List (Party × Event)}
    {s : Ends Console.State TtyConnect.State}
    (h : Run (transparentSession o write devnet devtty consoleFlush ttyFlush).Step
      (Link.begin (Console.State.start pieces) TtyConnect.State.start) labels s) :
    let file := bytesRead .fromStdin s.near.past
    let onTty := payload (TtyConnect.seenOn devtty s.far.filter.calls)
    let fromTty := bytesRead .fromDev s.far.past
    let shown := Console.sentOn 1 s.near.filter.calls
    (onTty <+: file ∧
      ((∃ rv, .flush .fromStdin (some []) rv ∈ s.far.past) → AllTaken .fromStdin s.near.past →
        AllTaken .fromStdin s.far.past → onTty = file)) ∧
    (shown <+: fromTty ∧
      ((∃ rv, .flush .fromDev (some []) rv ∈ s.near.past) → AllTaken .fromDev s.near.past →
        AllTaken .fromDev s.far.past → shown = fromTty)) := by
  refine link_verbatim (console_verbatim o) (tty_verbatim write) hnet htty rfl rfl ?_
    (fun _ => rfl) (fun _ => rfl) h
  intro f buf f' fd hnext
  simp only [transparentSession] at hnext
  cases hp : f.pieces with
  | nil => simp [hp] at hnext
  | cons p ps =>
      simp only [hp, Option.some.injEq, Prod.mk.injEq] at hnext
      obtain ⟨-, rfl⟩ := hnext
      rfl

/-- A file of two bytes. -/
theorem download_verbatim_ab :
    ∃ s, Run (transparentSession willing (fun _ n => n) 4 3 2 0).Step
        (Link.begin (Console.State.start [text "ab", []]) TtyConnect.State.start)
        [(.near, .selected false true), (.near, .read (some (text "ab"))),
          (.far, .selected false true), (.far, .read (some (text "ab"))),
          (.near, .selected false true), (.near, .read (some [])),
          (.far, .selected false true), (.far, .read (some []))] s ∧
      payload (TtyConnect.seenOn 3 s.far.filter.calls) = bytesRead .fromStdin s.near.past := by
  have hrun : ∃ s, Run (transparentSession willing (fun _ n => n) 4 3 2 0).Step
        (Link.begin (Console.State.start [text "ab", []]) TtyConnect.State.start)
        [(.near, .selected false true), (.near, .read (some (text "ab"))),
          (.far, .selected false true), (.far, .read (some (text "ab"))),
          (.near, .selected false true), (.near, .read (some [])),
          (.far, .selected false true), (.far, .read (some []))] s ∧
      (∃ rv, .flush .fromStdin (some []) rv ∈ s.far.past) ∧
      s.near.past = [.flush .fromStdin (some (text "ab")) 1, .flush .fromStdin (some []) 0, .shutdown] ∧
      s.far.past = [.flush .fromStdin (some (text "ab")) 1, .flush .fromStdin (some []) 0] := by
    refine ⟨_, .cons (.near rfl nofun) (.cons (.typed rfl rfl rfl) (.cons (.far rfl nofun)
      (.cons (.far rfl ?_) (.cons (.near rfl nofun) (.cons (.typed rfl rfl rfl)
        (.cons (.far rfl nofun) (.cons (.far rfl ?_) (.nil _)))))))), ⟨0, ?_⟩, rfl, rfl⟩
    · rintro _ ⟨⟩ -
      exact List.prefix_refl (text "ab")
    · rintro _ ⟨⟩ -
      exact ⟨rfl, .inr (by decide)⟩
    · exact List.mem_cons_of_mem _ (List.mem_singleton_self _)
  obtain ⟨s, hs, hend, hnear, hfar⟩ := hrun
  refine ⟨s, hs, (download_verbatim willing _ (by decide) (by decide) hs).1.2 hend ?_ ?_⟩
  · rw [hnear]
    intro buf rv hne hmem
    simp [hne] at hmem
    omega
  · rw [hfar]
    intro buf rv hne hmem
    simp [hne] at hmem
    omega

end XinuConsole.Relay
