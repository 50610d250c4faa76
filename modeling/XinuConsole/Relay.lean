import XinuConsole.Connectto
import XinuConsole.Lib.Run

/-!
`connectto` of `lib/connectto.c` with both of its loops: the one over `select`
that serves the two directions of a session, and the one behind it that drains
the device once the standard input has ended.

The machine stops at every call whose result it does not know: `select`, `read`
and `readDelay`. An event is such a result. What was done is kept in `past`: what
every `flushdata` read, with its result, and the `shutdown` of the device.
-/

namespace XinuConsole.Relay

open Lib Connectto

@[simp] def bufSize : ℕ := 4096

/-- The arguments of `connectto`. A filter gets the descriptor that it writes to. -/
structure Args (σ : Type) where
  dev : ℤ
  funct : ℤ → List Byte → σ → ℤ × σ
  flushc : ℤ
  sdown : Bool

/-- The two directions of a session, named by where `flushdata` reads. -/
inductive Way
  | fromDev
  | fromStdin
  deriving DecidableEq

inductive Action
  | flush (way : Way) (got : Option (List Byte)) (rv : ℤ)
  | shutdown
  deriving DecidableEq

/-- The call that comes next. -/
inductive Phase
  | select
  | readDev (stdinReady : Bool)
  | readStdin
  | delay
  | readRest
  | returned
  deriving DecidableEq

inductive Event
  | interrupted
  | selectFailed
  | selected (dev devin : Bool)
  | read (got : Option (List Byte))
  | readDelay (ready : Bool)
  deriving DecidableEq

structure State (σ : Type) where
  phase : Phase
  filter : σ
  past : List Action

variable {σ : Type}

def start (f : σ) : State σ := ⟨.select, f, []⟩

/-- Where `flushdata` writes; the standard output is 1. -/
def Args.devout (a : Args σ) : Way → ℤ
  | .fromDev => 1
  | .fromStdin => a.dev

/-- Which way a phase reads. -/
def Phase.way : Phase → Option Way
  | .readDev _ | .readRest => some .fromDev
  | .readStdin => some .fromStdin
  | _ => none

/-- The head of the second loop. -/
def Args.rest (a : Args σ) : Phase := if 0 < a.flushc then .delay else .readRest

def State.flush (a : Args σ) (way : Way) (got : Option (List Byte)) (s : State σ) : ℤ × State σ :=
  let (rv, filter) := flushdata (a.funct (a.devout way)) got s.filter
  (rv, { s with filter := filter, past := s.past ++ [.flush way got rv] })

/-- Behind the first loop. -/
def State.inputEnded (a : Args σ) (s : State σ) : State σ :=
  { s with phase := a.rest, past := if a.sdown then s.past ++ [.shutdown] else s.past }

/-- Behind a `flushdata` that returned `rv`. -/
def State.afterRead (a : Args σ) (rv : ℤ) (s : State σ) : State σ :=
  match s.phase with
  | .readDev stdinReady =>
    if rv ≤ 0 then { s with phase := .returned }
    else { s with phase := if stdinReady then .readStdin else .select }
  | .readStdin =>
    if rv ≤ 0 then
      if a.flushc = 0 then { s with phase := .returned } else s.inputEnded a
    else { s with phase := .select }
  | .readRest => if rv ≤ 0 then { s with phase := .returned } else { s with phase := a.rest }
  | _ => s

/-- `connectto` from one such call to the next. -/
def step (a : Args σ) (s : State σ) : Event → Option (State σ)
  | .interrupted => if s.phase = .select then some s else none
  | .selectFailed => if s.phase = .select then some { s with phase := .returned } else none
  | .selected dev devin =>
    if s.phase = .select then
      some { s with phase := if dev then .readDev devin else if devin then .readStdin else .select }
    else none
  | .read got =>
    if (got.getD []).length ≤ bufSize then
      s.phase.way.map fun way =>
        let (rv, s) := s.flush a way got
        s.afterRead a rv
    else none
  | .readDelay ready =>
    if s.phase = .delay then some { s with phase := if ready then .readRest else .returned }
    else none

/-- A step of the machine. -/
def Step (a : Args σ) (s : State σ) (e : Event) (s' : State σ) : Prop := step a s e = some s'

/-! ### What a step does -/

variable {a : Args σ} {s s' : State σ} {e : Event}

/-- A step either only decides what comes next, or is one `flushdata`. -/
theorem step_cases (h : Step a s e s') :
    (∃ phase, s' = { s with phase := phase } ∧
      (s.phase = .select ∧ phase ≠ .delay ∧ phase ≠ .readRest ∨
        s.phase = .delay ∧ (phase = .readRest ∨ phase = .returned))) ∨
    (∃ way got, e = .read got ∧ (got.getD []).length ≤ bufSize ∧ s.phase.way = some way ∧
      s' = (s.flush a way got).2.afterRead a (s.flush a way got).1) := by
  cases e with
  | interrupted =>
      simp only [Step, step, Option.ite_none_right_eq_some, Option.some.injEq] at h
      obtain ⟨hphase, rfl⟩ := h
      exact .inl ⟨s.phase, rfl, .inl ⟨hphase, by simp [hphase], by simp [hphase]⟩⟩
  | selectFailed =>
      simp only [Step, step, Option.ite_none_right_eq_some, Option.some.injEq] at h
      obtain ⟨hphase, rfl⟩ := h
      exact .inl ⟨.returned, rfl, .inl ⟨hphase, by simp, by simp⟩⟩
  | selected dev devin =>
      simp only [Step, step, Option.ite_none_right_eq_some, Option.some.injEq] at h
      obtain ⟨hphase, rfl⟩ := h
      refine .inl ⟨_, rfl, .inl ⟨hphase, ?_, ?_⟩⟩ <;> cases dev <;> cases devin <;> simp
  | read got =>
      simp only [Step, step, Option.ite_none_right_eq_some, Option.map_eq_some_iff] at h
      obtain ⟨hlen, way, hway, rfl⟩ := h
      exact .inr ⟨way, got, rfl, hlen, hway, rfl⟩
  | readDelay ready =>
      simp only [Step, step, Option.ite_none_right_eq_some, Option.some.injEq] at h
      obtain ⟨hphase, rfl⟩ := h
      refine .inl ⟨_, rfl, .inr ⟨hphase, ?_⟩⟩
      cases ready <;> simp

@[simp] theorem flush_phase (way : Way) (got : Option (List Byte)) :
    (s.flush a way got).2.phase = s.phase := rfl

@[simp] theorem flush_past (way : Way) (got : Option (List Byte)) :
    (s.flush a way got).2.past = s.past ++ [.flush way got (s.flush a way got).1] := rfl

@[simp] theorem afterRead_filter (rv : ℤ) : (s.afterRead a rv).filter = s.filter := by
  unfold State.afterRead
  split
  · split <;> rfl
  · split
    · split <;> rfl
    · rfl
  · split <;> rfl
  · rfl

/-! ### The course of a session -/

/-- A `flushdata` in one direction that the session survives. -/
def Action.Goes (way : Way) (act : Action) : Prop := ∃ got rv, act = .flush way got rv ∧ 0 < rv

/-- How the standard input ends, for a session that goes on without it. -/
def Args.closing (a : Args σ) (got : Option (List Byte)) (rv : ℤ) : List Action :=
  .flush .fromStdin got rv :: if a.sdown then [.shutdown] else []

/-- What was done up to a phase: both directions are served, until one of them
ends. -/
inductive Course (a : Args σ) : Phase → List Action → Prop
  | serving {phase : Phase} {served : List Action} :
      phase ≠ .delay → phase ≠ .readRest → (∀ act ∈ served, ∃ way, act.Goes way) →
      Course a phase served
  | hungUp {served : List Action} {got : Option (List Byte)} {rv : ℤ} :
      (∀ act ∈ served, ∃ way, act.Goes way) → rv ≤ 0 →
      Course a .returned (served ++ [.flush .fromDev got rv])
  | inputEnded {served : List Action} {got : Option (List Byte)} {rv : ℤ} :
      (∀ act ∈ served, ∃ way, act.Goes way) → rv ≤ 0 → a.flushc = 0 →
      Course a .returned (served ++ [.flush .fromStdin got rv])
  | draining {phase : Phase} {served rest : List Action} {got : Option (List Byte)} {rv : ℤ} :
      (∀ act ∈ served, ∃ way, act.Goes way) → rv ≤ 0 → a.flushc ≠ 0 →
      (∀ act ∈ rest, act.Goes .fromDev) → phase ∈ [.delay, .readRest, .returned] →
      Course a phase (served ++ a.closing got rv ++ rest)
  | drained {served rest : List Action} {got got' : Option (List Byte)} {rv rv' : ℤ} :
      (∀ act ∈ served, ∃ way, act.Goes way) → rv ≤ 0 → a.flushc ≠ 0 →
      (∀ act ∈ rest, act.Goes .fromDev) → rv' ≤ 0 →
      Course a .returned (served ++ a.closing got rv ++ rest ++ [.flush .fromDev got' rv'])

theorem rest_mem (a : Args σ) : a.rest ∈ [Phase.delay, .readRest, .returned] := by
  unfold Args.rest
  split <;> simp

/-- One more `flushdata` of the first loop. -/
theorem goes_append {served : List Action} (hserved : ∀ act ∈ served, ∃ way, act.Goes way)
    {way : Way} {got : Option (List Byte)} {rv : ℤ} (hrv : 0 < rv) :
    ∀ act ∈ served ++ [.flush way got rv], ∃ way, act.Goes way := by
  intro act hact
  rcases List.mem_append.mp hact with hact | hact
  · exact hserved act hact
  · exact ⟨way, got, rv, List.mem_singleton.mp hact, hrv⟩

/-- One step of the first loop. -/
theorem course_serving (hserved : ∀ act ∈ s.past, ∃ way, act.Goes way) (way : Way)
    (got : Option (List Byte)) (hway : s.phase.way = some way) (hrest : s.phase ≠ .readRest) :
    let t := (s.flush a way got).2.afterRead a (s.flush a way got).1
    Course a t.phase t.past := by
  intro t
  by_cases hrv : (s.flush a way got).1 ≤ 0
  · cases hphase : s.phase with
    | readDev stdinReady =>
        obtain rfl : Way.fromDev = way := by simpa [Phase.way, hphase] using hway
        have ht : t = { (s.flush a .fromDev got).2 with phase := .returned } := by
          simp only [t, State.afterRead, flush_phase, hphase, if_pos hrv]
        rw [ht]
        exact .hungUp hserved hrv
    | readStdin =>
        obtain rfl : Way.fromStdin = way := by simpa [Phase.way, hphase] using hway
        by_cases hflush : a.flushc = 0
        · have ht : t = { (s.flush a .fromStdin got).2 with phase := .returned } := by
            simp only [t, State.afterRead, flush_phase, hphase, if_pos hrv, if_pos hflush]
          rw [ht]
          exact .inputEnded hserved hrv hflush
        · have ht : t = (s.flush a .fromStdin got).2.inputEnded a := by
            simp only [t, State.afterRead, flush_phase, hphase, if_pos hrv, if_neg hflush]
          have hpast : t.past = s.past ++ a.closing got (s.flush a .fromStdin got).1 ++ [] := by
            rw [ht, State.inputEnded, Args.closing]
            cases a.sdown <;> simp
          rw [hpast, ht]
          exact .draining hserved hrv hflush (by simp) (rest_mem a)
    | readRest => exact absurd hphase hrest
    | select | delay | returned => simp [Phase.way, hphase] at hway
  · have hserved' : ∀ act ∈ s.past ++ [.flush way got (s.flush a way got).1], ∃ way, act.Goes way :=
      goes_append hserved (not_le.mp hrv)
    have ht : t.past = s.past ++ [.flush way got (s.flush a way got).1] ∧
        t.phase ≠ .delay ∧ t.phase ≠ .readRest := by
      cases hphase : s.phase with
      | readDev stdinReady =>
          simp only [t, State.afterRead, flush_phase, hphase, if_neg hrv, flush_past]
          cases stdinReady <;> simp
      | readStdin => simp [t, State.afterRead, hphase, hrv]
      | readRest => exact absurd hphase hrest
      | select | delay | returned => simp [Phase.way, hphase] at hway
    rw [ht.1]
    exact .serving ht.2.1 ht.2.2 hserved'

/-- One step of the second loop. -/
theorem course_draining {served rest : List Action} {got₀ : Option (List Byte)} {rv₀ : ℤ}
    (hserved : ∀ act ∈ served, ∃ way, act.Goes way) (hrv₀ : rv₀ ≤ 0) (hflush : a.flushc ≠ 0)
    (hgoes : ∀ act ∈ rest, act.Goes .fromDev) (hpast : s.past = served ++ a.closing got₀ rv₀ ++ rest)
    (hphase : s.phase = .readRest) (got : Option (List Byte)) :
    let t := (s.flush a .fromDev got).2.afterRead a (s.flush a .fromDev got).1
    Course a t.phase t.past := by
  intro t
  by_cases hrv : (s.flush a .fromDev got).1 ≤ 0
  · have ht : t = { (s.flush a .fromDev got).2 with phase := .returned } := by
      simp only [t, State.afterRead, flush_phase, hphase, if_pos hrv]
    rw [ht]
    dsimp only
    rw [flush_past, hpast]
    exact .drained hserved hrv₀ hflush hgoes hrv
  · have ht : t = { (s.flush a .fromDev got).2 with phase := a.rest } := by
      simp only [t, State.afterRead, flush_phase, hphase, if_neg hrv]
    rw [ht]
    dsimp only
    rw [flush_past, hpast, List.append_assoc]
    refine .draining hserved hrv₀ hflush (fun act hact => ?_) (rest_mem a)
    rcases List.mem_append.mp hact with hact | hact
    · exact hgoes act hact
    · exact ⟨got, _, List.mem_singleton.mp hact, not_le.mp hrv⟩

theorem course_step (hs : Course a s.phase s.past) (h : Step a s e s') :
    Course a s'.phase s'.past := by
  rcases step_cases h with ⟨phase, rfl, hnext⟩ | ⟨way, got, rfl, -, hway, rfl⟩
  · generalize hp : s.phase = p at hs hnext
    generalize hq : s.past = past at hs
    cases hs with
    | serving h₁ h₂ hserved =>
        rcases hnext with ⟨-, h₁, h₂⟩ | ⟨rfl, -⟩
        · exact .serving h₁ h₂ hserved
        · exact absurd rfl h₁
    | hungUp | inputEnded | drained => simp at hnext
    | draining hserved hrv hflush hgoes hmem =>
        rcases hnext with ⟨rfl, -⟩ | ⟨-, hphase⟩
        · simp at hmem
        · refine .draining hserved hrv hflush hgoes ?_
          rcases hphase with rfl | rfl <;> simp
  · generalize hp : s.phase = p at hs hway
    generalize hq : s.past = past at hs
    cases hs with
    | serving h₁ h₂ hserved =>
        exact course_serving (by rwa [hq]) way got (by rwa [hp]) (by rwa [hp])
    | hungUp | inputEnded | drained => simp [Phase.way] at hway
    | draining hserved hrv hflush hgoes hmem =>
        have hrest : p = .readRest := by
          simp only [List.mem_cons, List.not_mem_nil, or_false] at hmem
          rcases hmem with rfl | rfl | rfl <;> simp [Phase.way] at hway ⊢
        subst hrest
        obtain rfl : Way.fromDev = way := by simpa [Phase.way] using hway
        exact course_draining hserved hrv hflush hgoes hq hp got

/-- **The course of a session.** Every run serves both directions until one of them
ends. The device's end is the end; that of the standard input is the end too
without a flush timeout, and otherwise the device's sending side is shut down at
once and only the device is read from then on. -/
theorem connectto_course {f : σ} {es : List Event} (h : Run (Step a) (start f) es s) :
    Course a s.phase s.past :=
  h.invariant (I := fun s => Course a s.phase s.past) (fun _ _ _ hs hstep => course_step hs hstep)
    (.serving (by simp [start]) (by simp [start]) (by simp [start]))

/-- The standard input is empty from the start, and the device stays quiet. -/
theorem connectto_course_quiet :
    Course (⟨3, fun _ buf f => (buf.length, f), 2, true⟩ : Args Unit) .returned
      [.flush .fromStdin (some []) 0, .shutdown] := by
  have hrun : Run (Step (⟨3, fun _ buf f => (buf.length, f), 2, true⟩ : Args Unit)) (start ())
      [.selected false true, .read (some []), .readDelay false]
      ⟨.returned, (), [.flush .fromStdin (some []) 0, .shutdown]⟩ :=
    .cons rfl (.cons rfl (.cons rfl (.nil _)))
  exact connectto_course hrun

/-- A phase that reads one way has only survived reading it. -/
theorem Course.alive {phase : Phase} {past : List Action} {way : Way} (h : Course a phase past)
    (hway : phase.way = some way) {got : Option (List Byte)} {rv : ℤ}
    (hmem : .flush way got rv ∈ past) : 0 < rv := by
  have hgoes {way' : Way} (hact : Action.Goes way' (.flush way got rv)) : 0 < rv := by
    obtain ⟨got', rv', heq, hpos⟩ := hact
    obtain ⟨-, -, rfl⟩ := Action.flush.inj heq
    exact hpos
  cases h with
  | serving _ _ hserved =>
      obtain ⟨way', hact⟩ := hserved _ hmem
      exact hgoes hact
  | hungUp | inputEnded | drained => simp [Phase.way] at hway
  | draining hserved hrv hflush hrest hphase =>
      have hdev : way = .fromDev := by
        simp only [List.mem_cons, List.not_mem_nil, or_false] at hphase
        rcases hphase with rfl | rfl | rfl <;> simp [Phase.way] at hway
        exact hway.symm
      subst hdev
      rcases List.mem_append.mp hmem with hmem | hmem
      · rcases List.mem_append.mp hmem with hmem | hmem
        · obtain ⟨way', hact⟩ := hserved _ hmem
          exact hgoes hact
        · unfold Args.closing at hmem
          cases hsdown : a.sdown <;> simp [hsdown] at hmem
      · exact hgoes (hrest _ hmem)

/-! ### What went through -/

/-- The bytes that were read one way. -/
def Action.bytes (way : Way) : Action → List Byte
  | .flush way' got _ => if way' = way then got.getD [] else []
  | .shutdown => []

def bytesRead (way : Way) (past : List Action) : List Byte := past.flatMap (Action.bytes way)

theorem bytesRead_append (way : Way) (past more : List Action) :
    bytesRead way (past ++ more) = bytesRead way past ++ bytesRead way more :=
  List.flatMap_append

/-- The same as `step_cases`, for what the filter did. -/
theorem step_filter (h : Step a s e s') :
    (s'.filter = s.filter ∧ s'.past = s.past) ∨
    ∃ way got rv after, e = .read got ∧ s.phase.way = some way ∧
      flushdata (a.funct (a.devout way)) got s.filter = (rv, s'.filter) ∧
      s'.past = s.past ++ .flush way got rv :: after ∧ (after = [] ∨ after = [.shutdown]) := by
  rcases step_cases h with ⟨phase, rfl, -⟩ | ⟨way, got, rfl, -, hway, rfl⟩
  · exact .inl ⟨rfl, rfl⟩
  · have hpast : ∃ after, ((s.flush a way got).2.afterRead a (s.flush a way got).1).past =
        (s.flush a way got).2.past ++ after ∧ (after = [] ∨ after = [.shutdown]) := by
      have hsame (t : State σ) : ∃ after, t.past = t.past ++ after ∧
          (after = [] ∨ after = [.shutdown]) := ⟨[], by simp, .inl rfl⟩
      unfold State.afterRead
      split
      · split <;> exact hsame _
      · split
        · split
          · exact hsame _
          · unfold State.inputEnded
            cases a.sdown
            · exact hsame _
            · exact ⟨[.shutdown], rfl, .inr rfl⟩
        · exact hsame _
      · split <;> exact hsame _
      · exact hsame _
    obtain ⟨after, hpast, hafter⟩ := hpast
    refine .inr ⟨way, got, (s.flush a way got).1, after, rfl, hway, ?_, ?_, hafter⟩
    · rw [afterRead_filter]
      rfl
    · rw [hpast, flush_past, List.append_assoc]
      rfl

theorem flushdata_filter {funct : List Byte → σ → ℤ × σ} {got : Option (List Byte)} {f f' : σ}
    {rv : ℤ} (h : flushdata funct got f = (rv, f')) :
    (got.getD [] = [] ∧ f' = f) ∨
      ∃ b buf, got = some (b :: buf) ∧ f' = (funct (b :: buf) f).2 := by
  match got with
  | none | some [] => exact .inl ⟨rfl, (congrArg Prod.snd h).symm⟩
  | some (b :: buf) =>
      refine .inr ⟨b, buf, rfl, ?_⟩
      rw [← flushdata_state, h]

/-- What the filter keeps, a session keeps. -/
theorem filter_invariant {I : σ → Prop} (hfunct : ∀ fd buf f, I f → I (a.funct fd buf f).2) {f : σ}
    {es : List Event} (h : Run (Step a) (start f) es s) (hf : I f) : I s.filter := by
  refine h.invariant (I := fun s => I s.filter) (fun s e s' hs hstep => ?_) hf
  rcases step_filter hstep with ⟨hfilter, -⟩ | ⟨way, got, rv, after, -, -, hflush, -, -⟩
  · rwa [hfilter]
  · rcases flushdata_filter hflush with ⟨-, hsame⟩ | ⟨b, buf, -, hfilter⟩
    · rwa [hsame]
    · rw [hfilter]
      exact hfunct _ _ _ hs

theorem bytesRead_flush {past after : List Action} {way : Way} {got : Option (List Byte)} {rv : ℤ}
    (hafter : after = [] ∨ after = [.shutdown]) (way' : Way) :
    bytesRead way' (past ++ .flush way got rv :: after) =
      bytesRead way' past ++ if way = way' then got.getD [] else [] := by
  rw [bytesRead_append]
  congr 1
  rcases hafter with rfl | rfl <;> simp [bytesRead, Action.bytes]

/-! ### Filters that only write -/

/-- A filter that is one `write` of what was read; `sent` is what a descriptor
accepted. -/
structure Verbatim (funct : ℤ → List Byte → σ → ℤ × σ) (sent : ℤ → σ → List Byte) : Prop where
  own : ∀ fd buf f, sent fd (funct fd buf f).2 = sent fd f ++ buf.take (funct fd buf f).1.toNat
  other : ∀ fd fd' buf f, fd' ≠ fd → sent fd' (funct fd buf f).2 = sent fd' f

section Verbatim

variable {sent : ℤ → σ → List Byte}

theorem Verbatim.flushdata (hv : Verbatim a.funct sent) {fd : ℤ} {got : Option (List Byte)}
    {f f' : σ} {rv : ℤ} (hflush : flushdata (a.funct fd) got f = (rv, f')) :
    (∃ p, sent fd f' = sent fd f ++ p ∧ p <+: got.getD [] ∧ (0 < rv → p = got.getD [])) ∧
      ∀ fd', fd' ≠ fd → sent fd' f' = sent fd' f := by
  match got with
  | none | some [] =>
      obtain ⟨rfl, rfl⟩ := Prod.mk.inj hflush
      exact ⟨⟨[], by simp, by simp, by simp⟩, fun _ _ => rfl⟩
  | some (b :: buf) =>
      have hf' : f' = (a.funct fd (b :: buf) f).2 := by
        rw [← flushdata_state, hflush]
      have hlen := flushdata_pos_iff (a.funct fd) b buf f
      rw [hflush] at hlen
      refine ⟨⟨_, by rw [hf', hv.own], List.take_prefix _ (b :: buf), fun hrv => ?_⟩,
        fun fd' hfd => ?_⟩
      · have := hlen.mp hrv
        exact List.take_of_length_le (by omega)
      · rw [hf', hv.other fd fd' _ _ hfd]

/-- What one direction has delivered: a first part of what it read, and all of it
if every chunk was taken. -/
def Through (sent : ℤ → σ → List Byte) (fd : ℤ) (way : Way) (f : σ) (past : List Action) (f' : σ) :
    Prop :=
  ∃ p, sent fd f' = sent fd f ++ p ∧ p <+: bytesRead way past ∧
    ((∀ buf rv, buf ≠ [] → .flush way (some buf) rv ∈ past → 0 < rv) → p = bytesRead way past)

theorem devout_inj (hdev : a.dev ≠ 1) {way way' : Way} (hne : way ≠ way') :
    a.devout way' ≠ a.devout way := by
  cases way <;> cases way' <;> simp_all [Args.devout, eq_comm]

theorem through_step (hdev : a.dev ≠ 1) (hv : Verbatim a.funct sent) {f : σ} (way : Way)
    (hcourse : Course a s.phase s.past) (hs : Through sent (a.devout way) way f s.past s.filter)
    (h : Step a s e s') : Through sent (a.devout way) way f s'.past s'.filter := by
  rcases step_filter h with ⟨hfilter, hpast⟩ | ⟨way', got, rv, after, -, hway, hflush, hpast, hafter⟩
  · rwa [hfilter, hpast]
  · obtain ⟨p, hsent, hprefix, hall⟩ := hs
    obtain ⟨⟨q, hq, hqprefix, hqall⟩, hother⟩ := hv.flushdata hflush
    have hbytes : bytesRead way s'.past =
        bytesRead way s.past ++ if way' = way then got.getD [] else [] := by
      rw [hpast, bytesRead_flush hafter]
    by_cases heq : way' = way
    · subst heq
      -- the direction is still alive, so that nothing was left out before
      have hp : p = bytesRead way' s.past := hall fun buf rv _ hmem => hcourse.alive hway hmem
      rw [if_pos rfl] at hbytes
      refine ⟨p ++ q, by rw [hq, hsent, List.append_assoc], ?_, fun htaken => ?_⟩
      · rw [hbytes, hp]
        exact (List.prefix_append_right_inj _).mpr hqprefix
      · rw [hbytes, hp]
        congr 1
        match got with
        | none => exact List.eq_nil_of_prefix_nil hqprefix
        | some [] => exact List.eq_nil_of_prefix_nil hqprefix
        | some (b :: buf) =>
            exact hqall (htaken (b :: buf) rv (by simp) (by rw [hpast]; simp))
    · rw [if_neg heq, List.append_nil] at hbytes
      refine ⟨p, ?_, by rwa [hbytes], fun htaken => ?_⟩
      · rw [hother _ (devout_inj hdev heq), hsent]
      · rw [hbytes]
        exact hall fun buf rv hne hmem => htaken buf rv hne (by rw [hpast]; simp [hmem])

/-- **A transparent session.** In every run each direction has passed on a first
part of what it read, unchanged and in order, and everything as long as no write
fell short. -/
theorem verbatim_relay (hdev : a.dev ≠ 1) (hv : Verbatim a.funct sent) {f : σ} {es : List Event}
    (h : Run (Step a) (start f) es s) (way : Way) :
    Through sent (a.devout way) way f s.past s.filter := by
  have hinv := h.invariant
    (I := fun s => Course a s.phase s.past ∧ Through sent (a.devout way) way f s.past s.filter)
    (fun _ _ _ hs hstep => ⟨course_step hs.1 hstep, through_step hdev hv way hs.1 hs.2 hstep⟩)
    ⟨.serving (by simp [start]) (by simp [start]) (by simp [start]), [], by simp [start],
      by simp [start], by simp [start, bytesRead]⟩
  exact hinv.2

end Verbatim

end XinuConsole.Relay
