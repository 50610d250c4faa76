import XinuConsole.Relay

/-!
Two `connectto` loops at the ends of one connection. The near one has it as its
device, the far one as its standard input and output.

The connection is a pair of byte streams: what one end's writes were accepted of is
what the other end's reads return, in pieces of any length and at any time, and
the end of the stream once the other end has closed it. Steps of the two ends come
in any order.
-/

namespace XinuConsole.Relay

open Lib Connectto

variable {σ τ : Type}

/-- `nearSent` and `farSent` are the bytes that the connection accepted of a
filter. The near filter may read the standard input itself: `nextInput` is what
the next read returns. -/
structure Link (σ τ : Type) where
  near : Args σ
  far : Args τ
  nearSent : σ → List Byte
  farSent : τ → List Byte
  nextInput : σ → Option (List Byte × σ)

structure Ends (σ τ : Type) where
  near : State σ
  far : State τ

inductive Party
  | near
  | far
  deriving DecidableEq

/-- What a read may return on a stream of which `sent` was accepted and `taken` was
read before: an error at any time, the next bytes, or the end. -/
def MayRead (sent taken : List Byte) (closed : Prop) : Option (List Byte) → Prop
  | none => True
  | some [] => taken = sent ∧ closed
  | some (b :: buf) => taken ++ b :: buf <+: sent

/-- No more bytes come from this end. -/
def State.Closed (s : State σ) : Prop := s.phase = .returned ∨ .shutdown ∈ s.past

inductive Link.Step (l : Link σ τ) (s : Ends σ τ) : Party × Event → Ends σ τ → Prop
  | near {e : Event} {near' : State σ} :
      Relay.Step l.near s.near e near' →
      (∀ got, e = .read got → got = none ∨ s.near.phase.way = some .fromDev ∧
        MayRead (l.farSent s.far.filter) (bytesRead .fromDev s.near.past)
          (s.far.phase = .returned) got) →
      Link.Step l s (.near, e) { s with near := near' }
  | typed {buf : List Byte} {f : σ} {near' : State σ} :
      s.near.phase = .readStdin → l.nextInput s.near.filter = some (buf, f) →
      Relay.Step l.near { s.near with filter := f } (.read (some buf)) near' →
      Link.Step l s (.near, .read (some buf)) { s with near := near' }
  | far {e : Event} {far' : State τ} :
      Relay.Step l.far s.far e far' →
      (∀ got, e = .read got → s.far.phase.way = some .fromStdin →
        MayRead (l.nearSent s.near.filter) (bytesRead .fromStdin s.far.past) s.near.Closed got) →
      Link.Step l s (.far, e) { s with far := far' }

/-! ### One end -/

section One

variable {a : Args σ} {s s' : State σ} {e : Event}

theorem returned_final (h : Relay.Step a s e s') : s.phase ≠ .returned := by
  intro hphase
  rcases step_cases h with ⟨phase, -, ⟨hs, -⟩ | ⟨hs, -⟩⟩ | ⟨way, got, -, -, hway, -⟩
  · simp [hphase] at hs
  · simp [hphase] at hs
  · simp [hphase, Phase.way] at hway

/-- What one step does to a property of the filter and of what was read. -/
theorem step_keeps {J : List Byte → List Byte → σ → Prop}
    (hs : J (bytesRead .fromStdin s.past) (bytesRead .fromDev s.past) s.filter)
    (hdev : ∀ b buf, J (bytesRead .fromStdin s.past) (bytesRead .fromDev s.past ++ b :: buf)
      (a.funct 1 (b :: buf) s.filter).2)
    (hstdin : ∀ b buf, s.phase = .readStdin → e = .read (some (b :: buf)) →
      J (bytesRead .fromStdin s.past ++ b :: buf) (bytesRead .fromDev s.past)
        (a.funct a.dev (b :: buf) s.filter).2)
    (h : Relay.Step a s e s') :
    J (bytesRead .fromStdin s'.past) (bytesRead .fromDev s'.past) s'.filter := by
  rcases step_filter h with ⟨hfilter, hpast⟩ | ⟨way, got, rv, after, rfl, hway, hflush, hpast, hafter⟩
  · rwa [hfilter, hpast]
  · rw [hpast, bytesRead_flush hafter, bytesRead_flush hafter]
    rcases flushdata_filter hflush with ⟨hgot, hf⟩ | ⟨b, buf, rfl, hf⟩
    · rw [hgot, hf]
      simpa using hs
    · rw [hf]
      cases way with
      | fromDev => simpa [Args.devout] using hdev b buf
      | fromStdin =>
          have hphase : s.phase = .readStdin := by
            cases hp : s.phase <;> simp [hp, Phase.way] at hway
            rfl
          simpa [Args.devout] using hstdin b buf hphase rfl

theorem grows_step {sent : σ → List Byte}
    (hgrows : ∀ fd buf f, sent f <+: sent (a.funct fd buf f).2) (h : Relay.Step a s e s') :
    sent s.filter <+: sent s'.filter :=
  step_keeps (J := fun _ _ f => sent s.filter <+: sent f) (List.prefix_refl _)
    (fun _ _ => hgrows _ _ _) (fun _ _ _ _ => hgrows _ _ _) h

theorem past_step (h : Relay.Step a s e s') : s.past <+: s'.past := by
  rcases step_filter h with ⟨-, hpast⟩ | ⟨way, got, rv, after, -, -, -, hpast, -⟩
  · rw [hpast]
  · rw [hpast]
    exact List.prefix_append _ _

theorem Closed.step (hs : s.Closed) (h : Relay.Step a s e s') : s'.Closed := by
  rcases hs with hs | hs
  · exact absurd hs (returned_final h)
  · exact .inr ((past_step h).subset hs)

/-- The device is shut down only when the standard input is no longer read. -/
theorem Course.not_shutdown {past : List Action} (h : Course a .readStdin past) :
    .shutdown ∉ past := by
  intro hmem
  generalize hp : Phase.readStdin = phase at h
  cases h with
  | serving _ _ hserved =>
      obtain ⟨way, got, rv, hact, -⟩ := hserved _ hmem
      exact Action.noConfusion hact
  | hungUp | inputEnded | drained => exact Phase.noConfusion hp
  | draining _ _ _ _ hphase => simp [← hp] at hphase

/-- An end that is closed does not send. -/
theorem closed_step {sent : σ → List Byte} (hscreen : ∀ buf f, sent (a.funct 1 buf f).2 = sent f)
    (hcourse : Course a s.phase s.past) (hs : s.Closed) (h : Relay.Step a s e s') :
    sent s'.filter = sent s.filter := by
  refine step_keeps (J := fun _ _ f => sent f = sent s.filter) rfl (fun _ _ => hscreen _ _) ?_ h
  intro b buf hphase _
  rcases hs with hs | hs
  · exact absurd hs (returned_final h)
  · exact absurd hs (Course.not_shutdown (hphase ▸ hcourse))

end One

/-! ### Both ends -/

variable {l : Link σ τ} {s s' : Ends σ τ} {f₀ : σ} {g₀ : τ} {labels : List (Party × Event)}

/-- The filters write to the connection only by adding to it, and the near one
only for the device. -/
structure Link.Wired (l : Link σ τ) : Prop where
  near_grows : ∀ fd buf f, l.nearSent f <+: l.nearSent (l.near.funct fd buf f).2
  near_screen : ∀ buf f, l.nearSent (l.near.funct 1 buf f).2 = l.nearSent f
  near_input : ∀ f buf f', l.nextInput f = some (buf, f') → l.nearSent f' = l.nearSent f
  far_grows : ∀ fd buf f, l.farSent f <+: l.farSent (l.far.funct fd buf f).2

/-- What is underway belongs to the end that reads it, in both directions. -/
structure Wires (l : Link σ τ) (s : Ends σ τ) : Prop where
  near : Course l.near s.near.phase s.near.past
  far : Course l.far s.far.phase s.far.past
  up : bytesRead .fromStdin s.far.past <+: l.nearSent s.near.filter
  down : bytesRead .fromDev s.near.past <+: l.farSent s.far.filter
  upEnd : ∀ rv, .flush .fromStdin (some []) rv ∈ s.far.past →
    bytesRead .fromStdin s.far.past = l.nearSent s.near.filter ∧ s.near.Closed
  downEnd : ∀ rv, .flush .fromDev (some []) rv ∈ s.near.past →
    bytesRead .fromDev s.near.past = l.farSent s.far.filter ∧ s.far.phase = .returned

/-- Reading a stream keeps to what was sent. -/
theorem read_wire {a : Args σ} {s s' : State σ} {e : Event} {way : Way} {sent : List Byte}
    {closed : Prop} (h : Relay.Step a s e s')
    (hread : ∀ got, e = .read got → s.phase.way = some way →
      MayRead sent (bytesRead way s.past) closed got)
    (hs : bytesRead way s.past <+: sent)
    (hend : ∀ rv, .flush way (some []) rv ∈ s.past → bytesRead way s.past = sent ∧ closed) :
    bytesRead way s'.past <+: sent ∧
      ∀ rv, .flush way (some []) rv ∈ s'.past → bytesRead way s'.past = sent ∧ closed := by
  rcases step_filter h with ⟨-, hpast⟩ | ⟨way', got, rv, after, rfl, hway, -, hpast, hafter⟩
  · rw [hpast]
    exact ⟨hs, hend⟩
  · have hmem : ∀ rv', .flush way (some []) rv' ∈ s'.past →
        .flush way (some []) rv' ∈ s.past ∨ way' = way ∧ got = some [] := by
      intro rv' hmem
      rw [hpast] at hmem
      rcases List.mem_append.mp hmem with hmem | hmem
      · exact .inl hmem
      · rcases List.mem_cons.mp hmem with hact | hmem
        · obtain ⟨rfl, rfl, -⟩ := Action.flush.inj hact
          exact .inr ⟨rfl, rfl⟩
        · rcases hafter with rfl | rfl <;> simp at hmem
    rw [hpast, bytesRead_flush hafter]
    by_cases heq : way' = way
    · subst heq
      rw [if_pos rfl]
      have hmay := hread got rfl hway
      rw [hpast] at hmem
      rcases got with _ | (_ | ⟨b, buf⟩)
      · rw [Option.getD_none, List.append_nil]
        refine ⟨hs, fun rv' h' => ?_⟩
        rcases hmem rv' h' with h' | ⟨-, h'⟩
        · exact hend rv' h'
        · exact absurd h' (by simp)
      · rw [Option.getD_some, List.append_nil]
        exact ⟨hs, fun _ _ => hmay⟩
      · refine ⟨hmay, fun rv' h' => ?_⟩
        rcases hmem rv' h' with h' | ⟨-, h'⟩
        · -- the stream had ended, so that there was nothing to read
          have hmay : bytesRead way' s.past ++ b :: buf <+: sent := hmay
          have hlen := hmay.length_le
          rw [(hend rv' h').1, List.length_append, List.length_cons] at hlen
          omega
        · exact absurd h' (by simp)
    · rw [if_neg heq, List.append_nil]
      refine ⟨hs, fun rv' h' => ?_⟩
      rcases hmem rv' (by rwa [hpast]) with h' | ⟨h', -⟩
      · exact hend rv' h'
      · exact absurd h' heq

/-- A step of the near end, with the filter that it starts from. -/
theorem wires_near (hl : l.Wired) (hs : Wires l s) {near : State σ} {e : Event} {near' : State σ}
    (hphase : near.phase = s.near.phase) (hpast : near.past = s.near.past)
    (hsent : l.nearSent near.filter = l.nearSent s.near.filter) (h : Relay.Step l.near near e near')
    (hread : ∀ got, e = .read got → near.phase.way = some .fromDev →
      MayRead (l.farSent s.far.filter) (bytesRead .fromDev near.past) (s.far.phase = .returned) got) :
    Wires l { s with near := near' } := by
  have hcourse : Course l.near near.phase near.past := by
    rw [hphase, hpast]
    exact hs.near
  obtain ⟨hdown, hdownEnd⟩ := read_wire h hread (hpast ▸ hs.down) (hpast ▸ hs.downEnd)
  refine ⟨course_step hcourse h, hs.far, ?_, hdown, fun rv hmem => ?_, hdownEnd⟩
  · exact (hsent ▸ hs.up).trans (grows_step hl.near_grows h)
  · obtain ⟨htaken, hclosed⟩ := hs.upEnd rv hmem
    have hclosed : near.Closed := by
      rw [State.Closed, hphase, hpast]
      exact hclosed
    exact ⟨by rw [htaken, closed_step hl.near_screen hcourse hclosed h, hsent],
      Closed.step hclosed h⟩

theorem wires_step (hl : l.Wired) (hs : Wires l s) {i : Party × Event} (h : l.Step s i s') :
    Wires l s' := by
  cases h with
  | near h hread =>
      refine wires_near hl hs rfl rfl rfl h fun got he hway => ?_
      rcases hread got he with rfl | ⟨-, hmay⟩
      · trivial
      · exact hmay
  | typed hphase hinput h =>
      next buf f near' =>
      have hsent := hl.near_input _ _ _ hinput
      have hphase' : State.phase { s.near with filter := f } = s.near.phase := rfl
      have hpast : State.past { s.near with filter := f } = s.near.past := rfl
      refine wires_near hl hs hphase' hpast hsent h fun got _ hway => ?_
      simp [hphase, Phase.way] at hway
  | far h hread =>
      obtain ⟨hup, hupEnd⟩ := read_wire h hread hs.up hs.upEnd
      refine ⟨hs.near, course_step hs.far h, hup, hs.down.trans (grows_step hl.far_grows h), hupEnd,
        fun rv hmem => ?_⟩
      exact absurd (hs.downEnd rv hmem).2 (returned_final h)

def Link.begin (f₀ : σ) (g₀ : τ) : Ends σ τ := ⟨start f₀, start g₀⟩

theorem link_wires (hl : l.Wired) (h : Run l.Step (Link.begin f₀ g₀) labels s) : Wires l s :=
  h.invariant (fun _ _ _ hs hstep => wires_step hl hs hstep)
    ⟨.serving (by simp [Link.begin, start]) (by simp [Link.begin, start])
        (by simp [Link.begin, start]),
      .serving (by simp [Link.begin, start]) (by simp [Link.begin, start])
        (by simp [Link.begin, start]),
      List.nil_prefix, List.nil_prefix, by simp [Link.begin, start], by simp [Link.begin, start]⟩

/-- What the near filter keeps with each chunk, a run of both ends keeps. -/
theorem near_invariant {J : List Byte → σ → Prop}
    (hdev : ∀ o f b buf, J o f → J (o ++ b :: buf) (l.near.funct 1 (b :: buf) f).2)
    (hinput : ∀ o f buf f', l.nextInput f = some (buf, f') → J o f → J o f')
    (htyped : ∀ o f b buf f', l.nextInput f = some (b :: buf, f') → J o f →
      J o (l.near.funct l.near.dev (b :: buf) f').2)
    (h : Run l.Step (Link.begin f₀ g₀) labels s) (h₀ : J [] f₀) :
    J (bytesRead .fromDev s.near.past) s.near.filter := by
  refine h.invariant (I := fun s => J (bytesRead .fromDev s.near.past) s.near.filter) ?_
    (by simpa [Link.begin, start, bytesRead] using h₀)
  intro s i s' hs hstep
  cases hstep with
  | near hn hread =>
      refine step_keeps (J := fun _ => J) hs (fun b buf => hdev _ _ b buf hs) (fun b buf hphase he => ?_) hn
      rcases hread _ he with hread | ⟨hway, -⟩
      · exact absurd hread (by simp)
      · simp [hphase, Phase.way] at hway
  | far => exact hs
  | typed hphase hnext hn =>
      next buf f near' =>
      have hf : J (bytesRead .fromDev s.near.past) f := hinput _ _ _ _ hnext hs
      refine step_keeps (J := fun _ => J) hf (fun b buf => hdev _ _ b buf hf) (fun b buf' _ he => ?_) hn
      obtain rfl : buf = b :: buf' := Option.some.inj (Event.read.inj he)
      exact htyped _ _ b buf' _ hnext hs

/-- The same for the far filter, which reads from the connection only. -/
theorem far_invariant {K : List Byte → List Byte → τ → Prop}
    (hdev : ∀ i o f b buf, K i o f → K i (o ++ b :: buf) (l.far.funct 1 (b :: buf) f).2)
    (hstdin : ∀ i o f b buf, K i o f → K (i ++ b :: buf) o (l.far.funct l.far.dev (b :: buf) f).2)
    (h : Run l.Step (Link.begin f₀ g₀) labels s) (h₀ : K [] [] g₀) :
    K (bytesRead .fromStdin s.far.past) (bytesRead .fromDev s.far.past) s.far.filter := by
  refine h.invariant
    (I := fun s => K (bytesRead .fromStdin s.far.past) (bytesRead .fromDev s.far.past) s.far.filter)
    ?_ (by simpa [Link.begin, start, bytesRead] using h₀)
  intro s i s' hs hstep
  cases hstep with
  | near | typed => exact hs
  | far hf hread =>
      exact step_keeps hs (fun b buf => hdev _ _ _ b buf hs)
        (fun b buf _ _ => hstdin _ _ _ b buf hs) hf

/-! ### Filters that only write, at both ends -/

section Verbatim

variable {nsent : ℤ → σ → List Byte} {fsent : ℤ → τ → List Byte}
  (hnear : Verbatim l.near.funct nsent) (hfar : Verbatim l.far.funct fsent)
  (hndev : l.near.dev ≠ 1) (hfdev : l.far.dev ≠ 1) (hup : l.nearSent = nsent l.near.dev)
  (hdown : l.farSent = fsent 1)
  (hinput : ∀ f buf f' fd, l.nextInput f = some (buf, f') → nsent fd f' = nsent fd f)

theorem Verbatim.grows {a : Args σ} {sent : ℤ → σ → List Byte} (hv : Verbatim a.funct sent)
    (fd' fd : ℤ) (buf : List Byte) (f : σ) : sent fd' f <+: sent fd' (a.funct fd buf f).2 := by
  by_cases hfd : fd' = fd
  · subst hfd
    rw [hv.own]
    exact List.prefix_append _ _
  · rw [hv.other _ _ _ _ hfd]

include hnear hfar hndev hup hdown hinput in
theorem verbatim_wired : l.Wired where
  near_grows fd buf f := by
    rw [hup]
    exact hnear.grows _ _ _ _
  near_screen buf f := by
    rw [hup]
    exact hnear.other _ _ _ _ hndev
  near_input f buf f' h := by
    rw [hup]
    exact hinput f buf f' _ h
  far_grows fd buf f := by
    rw [hdown]
    exact hfar.grows _ _ _ _

include hnear hfar hndev hfdev hup hdown hinput in
theorem link_through (h : Run l.Step (Link.begin f₀ g₀) labels s) (way : Way) :
    Through nsent (l.near.devout way) way f₀ s.near.past s.near.filter ∧
      Through fsent (l.far.devout way) way g₀ s.far.past s.far.filter := by
  have hl := verbatim_wired hnear hfar hndev hup hdown hinput
  have hinv := h.invariant
    (I := fun s => Wires l s ∧ Through nsent (l.near.devout way) way f₀ s.near.past s.near.filter ∧
      Through fsent (l.far.devout way) way g₀ s.far.past s.far.filter) ?_ ?_
  · exact hinv.2
  · rintro s i s' ⟨hwires, hn, hf⟩ hstep
    refine ⟨wires_step hl hwires hstep, ?_⟩
    cases hstep with
    | near h hread => exact ⟨through_step hndev hnear way hwires.near hn h, hf⟩
    | typed hphase hnext h =>
        next buf f near' =>
        obtain ⟨p, hsent, hp⟩ := hn
        have hn' : Through nsent (l.near.devout way) way f₀ s.near.past f :=
          ⟨p, (hinput _ _ _ _ hnext).trans hsent, hp⟩
        exact ⟨through_step hndev hnear way (s := { s.near with filter := f }) hwires.near hn' h, hf⟩
    | far h hread => exact ⟨hn, through_step hfdev hfar way hwires.far hf h⟩
  · have hnone {ρ : Type} (sent : ℤ → ρ → List Byte) (fd : ℤ) (f : ρ) :
        Through sent fd way f [] f := ⟨[], by simp, by simp, by simp [bytesRead]⟩
    exact ⟨link_wires hl (.nil _), hnone nsent _ f₀, hnone fsent _ g₀⟩

/-- No write of one direction fell short. -/
def AllTaken (way : Way) (past : List Action) : Prop :=
  ∀ buf rv, buf ≠ [] → .flush way (some buf) rv ∈ past → 0 < rv

include hnear hfar hndev hfdev hup hdown hinput in
/-- What the far device accepted is a first part of what the near end read from its
standard input, and all of it once the far end has seen the end, if no write fell
short. The same the other way round. -/
theorem link_verbatim (hf₀ : ∀ fd, nsent fd f₀ = []) (hg₀ : ∀ fd, fsent fd g₀ = [])
    (h : Run l.Step (Link.begin f₀ g₀) labels s) :
    (fsent l.far.dev s.far.filter <+: bytesRead .fromStdin s.near.past ∧
      ((∃ rv, .flush .fromStdin (some []) rv ∈ s.far.past) → AllTaken .fromStdin s.near.past →
        AllTaken .fromStdin s.far.past →
        fsent l.far.dev s.far.filter = bytesRead .fromStdin s.near.past)) ∧
    (nsent 1 s.near.filter <+: bytesRead .fromDev s.far.past ∧
      ((∃ rv, .flush .fromDev (some []) rv ∈ s.near.past) → AllTaken .fromDev s.near.past →
        AllTaken .fromDev s.far.past →
        nsent 1 s.near.filter = bytesRead .fromDev s.far.past)) := by
  have hwires := link_wires (verbatim_wired hnear hfar hndev hup hdown hinput) h
  have hthrough := link_through hnear hfar hndev hfdev hup hdown hinput h
  have huwire := hwires.up
  have hdwire := hwires.down
  rw [hup] at huwire
  rw [hdown] at hdwire
  obtain ⟨⟨p, hp, hpre, hpall⟩, q, hq, hqre, hqall⟩ := hthrough .fromStdin
  obtain ⟨⟨p', hp', hpre', hpall'⟩, q', hq', hqre', hqall'⟩ := hthrough .fromDev
  rw [hf₀, List.nil_append] at hp hp'
  rw [hg₀, List.nil_append] at hq hq'
  refine ⟨⟨?_, fun ⟨rv, hend⟩ hn hf => ?_⟩, ?_, fun ⟨rv, hend⟩ hn hf => ?_⟩
  · rw [show fsent l.far.dev s.far.filter = q from hq]
    exact (hqre.trans huwire).trans (hp ▸ hpre)
  · have hall := (hwires.upEnd rv hend).1
    rw [hup] at hall
    rw [show fsent l.far.dev s.far.filter = q from hq, hqall hf, hall]
    exact hp.trans (hpall hn)
  · rw [show nsent 1 s.near.filter = p' from hp']
    exact (hpre'.trans hdwire).trans (hq' ▸ hqre')
  · have hall := (hwires.downEnd rv hend).1
    rw [hdown] at hall
    rw [show nsent 1 s.near.filter = p' from hp', hpall' hn, hall]
    exact hq'.trans (hqall' hf)

end Verbatim

end XinuConsole.Relay
