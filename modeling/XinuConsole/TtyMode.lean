import Mathlib.Logic.Function.Basic
import XinuConsole.Lib.CString
import XinuConsole.Lib.Run

/-!
`lib/ttymode.c`: the terminal modes of the console, and the way back from them.

The settings of a terminal are saved in front of the first change and put back
by `restoretty`. Each call may fail: the answers of `tcgetattr` and `tcsetattr`
are part of it. A call on a descriptor outside the arrays that looks at them
has no result.
-/

namespace XinuConsole.TtyMode

open Lib

/-! Flags of the settings, with their values under Linux. -/

def brkint : BitVec 32 := 0x2
def inpck : BitVec 32 := 0x10
def istrip : BitVec 32 := 0x20
def icrnl : BitVec 32 := 0x100
def ixon : BitVec 32 := 0x400
def opost : BitVec 32 := 0x1
def csize : BitVec 32 := 0x30
def cs8 : BitVec 32 := 0x30
def parenb : BitVec 32 := 0x100
def isig : BitVec 32 := 0x1
def icanon : BitVec 32 := 0x2
def echo : BitVec 32 := 0x8
def iexten : BitVec 32 := 0x8000

def vtime : Fin 32 := 5
def vmin : Fin 32 := 6

/-- `struct termios`. -/
@[ext] structure Termios where
  iflag : BitVec 32
  oflag : BitVec 32
  cflag : BitVec 32
  lflag : BitVec 32
  line : Byte
  cc : Fin 32 → Byte
  ispeed : BitVec 32
  ospeed : BitVec 32
  deriving DecidableEq

/-- A read waits for one character. -/
def oneByte (cc : Fin 32 → Byte) : Fin 32 → Byte :=
  Function.update (Function.update cc vmin 1) vtime 0

/-- The settings `rawtty` asks for. -/
def Termios.raw (t : Termios) : Termios :=
  { t with
    lflag := t.lflag &&& ~~~(echo ||| icanon ||| iexten ||| isig)
    iflag := (t.iflag &&& ~~~(brkint ||| inpck ||| istrip ||| ixon)) ||| icrnl
    cflag := (t.cflag &&& ~~~(csize ||| parenb)) ||| cs8
    oflag := t.oflag &&& ~~~opost
    cc := oneByte t.cc }

/-- The settings `cbreakmode` asks for. -/
def Termios.cbreak (t : Termios) : Termios :=
  { t with
    lflag := t.lflag &&& ~~~(echo ||| icanon)
    cc := oneByte t.cc }

abbrev nTty : ℕ := 20

/-- The terminal behind the descriptor, and the variables of the module. -/
structure State where
  term : Termios
  savedttys : Fin nTty → Termios
  ttyissaved : Fin nTty → Bool

/-- The element of the arrays for a descriptor. -/
def slot (fd : ℤ) : Option (Fin nTty) :=
  if h : 0 ≤ fd ∧ fd < nTty then some ⟨fd.toNat, by rw [Int.toNat_lt h.1]; exact h.2⟩ else none

/-- The body shared by the two modes. The settings are saved before it is known
whether they can be changed. -/
def setMode (mode : Termios → Termios) (get set : Bool) (i : Fin nTty) (s : State) : State :=
  if s.ttyissaved i then s
  else if get = false then s
  else
    let s := { s with savedttys := Function.update s.savedttys i s.term }
    if set = false then s
    else
      { s with
        term := mode (s.savedttys i)
        ttyissaved := Function.update s.ttyissaved i true }

/-- `rawtty`; `get` and `set` say whether `tcgetattr` and `tcsetattr` succeed. -/
def rawtty (fd : ℤ) (get set : Bool) (s : State) : Option State :=
  match slot fd with
  | none => some s
  | some i => some (setMode Termios.raw get set i s)

/-- `cbreakmode`, which looks at the array before it looks at the descriptor. -/
def cbreakmode (fd : ℤ) (get set : Bool) (s : State) : Option State :=
  (slot fd).map fun i => setMode Termios.cbreak get set i s

/-- `restoretty`. -/
def restoretty (fd : ℤ) (set : Bool) (s : State) : Option State :=
  (slot fd).map fun i =>
    { s with
      term := if s.ttyissaved i ∧ set then s.savedttys i else s.term
      ttyissaved := Function.update s.ttyissaved i false }

/-- A call, with the answers it gets. -/
inductive Call
  | rawtty (get set : Bool)
  | cbreakmode (get set : Bool)
  | restoretty (set : Bool)
  deriving DecidableEq

def call (fd : ℤ) (s : State) : Call → Option State
  | .rawtty get set => TtyMode.rawtty fd get set s
  | .cbreakmode get set => TtyMode.cbreakmode fd get set s
  | .restoretty set => TtyMode.restoretty fd set s

/-! ### The modes -/

theorem oneByte_oneByte (cc : Fin 32 → Byte) : oneByte (oneByte cc) = oneByte cc := by
  have hne : vmin ≠ vtime := by decide
  rw [oneByte, oneByte, Function.update_comm hne, Function.update_idem, Function.update_comm hne,
    Function.update_idem]

section Bits

variable (x a b : BitVec 32)

theorem clear_clear : (x &&& ~~~a) &&& ~~~b = x &&& ~~~(a ||| b) := by
  ext i hi
  simp only [BitVec.getElem_and, BitVec.getElem_not, BitVec.getElem_or]
  cases x[i] <;> cases a[i] <;> cases b[i] <;> rfl

/-- Bits cleared and set twice are cleared and set once. -/
theorem clear_set_twice : (((x &&& ~~~a) ||| b) &&& ~~~a) ||| b = (x &&& ~~~a) ||| b := by
  ext i hi
  simp only [BitVec.getElem_and, BitVec.getElem_not, BitVec.getElem_or]
  cases x[i] <;> cases a[i] <;> cases b[i] <;> rfl

end Bits

theorem Termios.raw_raw (t : Termios) : t.raw.raw = t.raw := by
  apply Termios.ext
  case iflag => exact clear_set_twice _ _ _
  case cflag => exact clear_set_twice _ _ _
  case oflag => exact (clear_clear _ _ _).trans (by rw [BitVec.or_self]; rfl)
  case lflag => exact (clear_clear _ _ _).trans (by rw [BitVec.or_self]; rfl)
  case cc => exact oneByte_oneByte _
  all_goals rfl

theorem Termios.cbreak_cbreak (t : Termios) : t.cbreak.cbreak = t.cbreak := by
  apply Termios.ext
  case lflag => exact (clear_clear _ _ _).trans (by rw [BitVec.or_self]; rfl)
  case cc => exact oneByte_oneByte _
  all_goals rfl

/-- The raw mode has all that the other one asks for. -/
theorem Termios.cbreak_raw (t : Termios) : t.raw.cbreak = t.raw := by
  apply Termios.ext
  case lflag => exact clear_clear _ _ _
  case cc => exact oneByte_oneByte _
  all_goals rfl

theorem Termios.raw_cbreak (t : Termios) : t.cbreak.raw = t.raw := by
  apply Termios.ext
  case lflag => exact clear_clear _ _ _
  case cc => exact oneByte_oneByte _
  all_goals rfl

/-! ### The settings to go back to -/

/-- The state after a call on a descriptor of the arrays. -/
def State.after (i : Fin nTty) (s : State) : Call → State
  | .rawtty get set => setMode Termios.raw get set i s
  | .cbreakmode get set => setMode Termios.cbreak get set i s
  | .restoretty set =>
      { s with
        term := if s.ttyissaved i ∧ set then s.savedttys i else s.term
        ttyissaved := Function.update s.ttyissaved i false }

theorem call_eq (i : Fin nTty) (s : State) (c : Call) : call i s c = some (s.after i c) := by
  have hslot : slot i = some i := dif_pos ⟨Int.natCast_nonneg i, Int.ofNat_lt.mpr i.isLt⟩
  cases c with
  | rawtty get set => rw [call, rawtty, hslot]; rfl
  | cbreakmode get set => rw [call, cbreakmode, hslot]; rfl
  | restoretty set => rw [call, restoretty, hslot]; rfl

/-- The settings the next `restoretty` that works leads to. -/
def State.base (i : Fin nTty) (s : State) : Termios :=
  if s.ttyissaved i then s.savedttys i else s.term

/-- While settings are saved, the terminal is in a mode made from them. -/
def State.Moded (i : Fin nTty) (s : State) : Prop :=
  s.ttyissaved i = true → s.term = (s.savedttys i).raw ∨ s.term = (s.savedttys i).cbreak

/-- A `restoretty` that fails although settings are saved: the terminal stays
as it is, and the settings are forgotten. -/
def Forgets (i : Fin nTty) (s : State) (c : Call) : Prop :=
  c = .restoretty false ∧ s.ttyissaved i = true

/-- The settings `t` are not the original ones, but a mode made from them. -/
def Lost (orig t : Termios) : Prop := (t = orig.raw ∨ t = orig.cbreak) ∧ t ≠ orig

theorem Lost.mode {orig t : Termios} (h : Lost orig t) : Lost orig t.raw ∧ Lost orig t.cbreak := by
  obtain ⟨rfl | rfl, hne⟩ := h
  · rw [Termios.raw_raw, Termios.cbreak_raw]
    exact ⟨⟨.inl rfl, hne⟩, .inl rfl, hne⟩
  · rw [Termios.raw_cbreak, Termios.cbreak_cbreak]
    refine ⟨⟨.inl rfl, fun hraw => hne ?_⟩, .inr rfl, hne⟩
    -- settings that the raw mode does not change are not changed by the other
    rw [← hraw, Termios.cbreak_raw]

section Step

variable {i : Fin nTty} {s : State} {c : Call}

theorem setMode_base {mode : Termios → Termios} {get set : Bool} :
    (setMode mode get set i s).base i = s.base i := by
  rw [setMode]
  split
  · rfl
  · next hfree =>
      split
      · rfl
      · dsimp only
        split
        · simp [State.base, hfree]
        · simp [State.base, hfree]

theorem setMode_moded {mode : Termios → Termios} {get set : Bool} (h : s.Moded i)
    (hmode : mode = Termios.raw ∨ mode = Termios.cbreak) :
    (setMode mode get set i s).Moded i := by
  rw [setMode]
  split
  · exact h
  · next hfree =>
      split
      · exact h
      · dsimp only
        split
        · exact fun hsaved => absurd hsaved hfree
        · intro _
          rcases hmode with rfl | rfl
          · exact .inl rfl
          · exact .inr rfl

theorem after_moded (h : s.Moded i) : (s.after i c).Moded i := by
  cases c with
  | rawtty get set => exact setMode_moded h (.inl rfl)
  | cbreakmode get set => exact setMode_moded h (.inr rfl)
  | restoretty set => exact fun hsaved => absurd hsaved (by simp [State.after])

/-- A call that does not forget the settings keeps them. -/
theorem after_base (h : ¬Forgets i s c) : (s.after i c).base i = s.base i := by
  cases c with
  | rawtty get set => exact setMode_base
  | cbreakmode get set => exact setMode_base
  | restoretty set =>
      simp only [State.after, State.base, Function.update_self]
      cases hsaved : s.ttyissaved i with
      | false => simp
      | true =>
          cases set with
          | false => exact absurd ⟨rfl, hsaved⟩ h
          | true => simp

/-- One that does leads to the settings of the terminal. -/
theorem after_base_forgets (h : Forgets i s c) : (s.after i c).base i = s.term := by
  obtain ⟨rfl, -⟩ := h
  simp [State.after, State.base]

/-- Settings that are lost stay lost. -/
theorem after_lost {orig : Termios} (hmoded : s.Moded i) (h : Lost orig (s.base i)) :
    Lost orig ((s.after i c).base i) := by
  by_cases hforgets : Forgets i s c
  · rw [after_base_forgets hforgets]
    rw [State.base, if_pos hforgets.2] at h
    rcases hmoded hforgets.2 with hterm | hterm
    · exact hterm ▸ h.mode.1
    · exact hterm ▸ h.mode.2
  · rwa [after_base hforgets]

end Step

/-! ### Sequences of calls -/

theorem runFn_call (i : Fin nTty) (s : State) (cs : List Call) :
    runFn (call i) s cs = some (cs.foldl (State.after i) s) := by
  induction cs generalizing s with
  | nil => rfl
  | cons c cs ih => rw [runFn, call_eq, Option.bind_some, ih, List.foldl_cons]

/-- No `restoretty` of the sequence fails while settings are saved, but where
the terminal has the settings `orig`. -/
def Keeps (i : Fin nTty) (orig : Termios) (s : State) (cs : List Call) : Prop :=
  ∀ pre post m, cs = pre ++ .restoretty false :: post → runFn (call i) s pre = some m →
    m.ttyissaved i = true → m.term = orig

section Sequence

variable {i : Fin nTty} {orig : Termios}

theorem keeps_cons {s : State} {c : Call} {cs : List Call} :
    Keeps i orig s (c :: cs) ↔ (Forgets i s c → s.term = orig) ∧ Keeps i orig (s.after i c) cs := by
  constructor
  · intro h
    constructor
    · rintro ⟨rfl, hsaved⟩
      exact h [] cs s rfl rfl hsaved
    · rintro pre post m rfl hm
      exact h (c :: pre) post m rfl (by rwa [runFn, call_eq, Option.bind_some])
  · rintro ⟨hfirst, hrest⟩ pre post m hcs hm hsaved
    cases pre with
    | nil =>
        obtain ⟨rfl, -⟩ := List.cons.inj hcs
        obtain rfl : s = m := Option.some.inj hm
        exact hfirst ⟨rfl, hsaved⟩
    | cons c' pre =>
        obtain ⟨rfl, rfl⟩ := List.cons.inj hcs
        rw [runFn, call_eq, Option.bind_some] at hm
        exact hrest pre post m rfl hm hsaved

theorem foldl_lost {s : State} (cs : List Call) (hmoded : s.Moded i) (h : Lost orig (s.base i)) :
    Lost orig ((cs.foldl (State.after i) s).base i) := by
  induction cs generalizing s with
  | nil => exact h
  | cons c cs ih => exact ih (after_moded hmoded) (after_lost hmoded h)

/-- The settings to go back to are the original ones as long as none are
forgotten, and never again afterwards. -/
theorem foldl_base {s : State} (cs : List Call) (hmoded : s.Moded i) (h : s.base i = orig) :
    (cs.foldl (State.after i) s).base i = orig ↔ Keeps i orig s cs := by
  induction cs generalizing s with
  | nil => exact ⟨fun _ pre post m hnil => absurd hnil (by simp), fun _ => h⟩
  | cons c cs ih =>
      rw [keeps_cons, List.foldl_cons]
      by_cases hforgets : Forgets i s c
      · by_cases hterm : s.term = orig
        · rw [ih (after_moded hmoded) ((after_base_forgets hforgets).trans hterm)]
          exact ⟨fun hcs => ⟨fun _ => hterm, hcs⟩, fun hcs => hcs.2⟩
        · rw [State.base, if_pos hforgets.2] at h
          have hlost : Lost orig ((s.after i c).base i) := by
            rw [after_base_forgets hforgets]
            exact ⟨h ▸ hmoded hforgets.2, hterm⟩
          have hne := (foldl_lost cs (after_moded hmoded) hlost).2
          exact ⟨fun heq => absurd heq hne, fun hcs => absurd (hcs.1 hforgets) hterm⟩
      · rw [ih (after_moded hmoded) ((after_base hforgets).trans h)]
        exact ⟨fun hcs => ⟨fun hf => absurd hf hforgets, hcs⟩, fun hcs => hcs.2⟩

end Sequence

/-- The variables at the start of the program. -/
def State.init (term : Termios) (savedttys : Fin nTty → Termios) : State :=
  ⟨term, savedttys, fun _ => false⟩

/-- **The user's settings.** After calls on one descriptor the last `restoretty`
leads back to the settings at the start exactly if no earlier one failed while
settings were saved, but where the terminal had them anyway. -/
theorem restoretty_iff (i : Fin nTty) (term : Termios) (savedttys : Fin nTty → Termios)
    (cs : List Call) (set : Bool)
    (hset : ∀ m, runFn (call i) (State.init term savedttys) cs = some m →
      m.ttyissaved i = true → set = true) :
    (∃ s, runFn (call i) (State.init term savedttys) (cs ++ [.restoretty set]) = some s ∧
      s.term = term) ↔ Keeps i term (State.init term savedttys) cs := by
  have hbase : _ = term ↔ Keeps i term (State.init term savedttys) cs :=
    foldl_base cs (fun hsaved => absurd hsaved Bool.false_ne_true) rfl
  have hlast := hset _ (runFn_call i _ cs)
  rw [runFn_call, List.foldl_append, ← hbase]
  generalize cs.foldl (State.after i) (State.init term savedttys) = s at hlast
  have hterm : (s.after i (.restoretty set)).term = s.base i := by
    simp only [State.after, State.base]
    cases hsaved : s.ttyissaved i with
    | false => simp
    | true => simp [hlast hsaved]
  rw [← hterm]
  constructor
  · rintro ⟨s', heq, hs'⟩
    rwa [← Option.some.inj heq] at hs'
  · exact fun hs => ⟨_, rfl, hs⟩

/-- A terminal that echoes and edits lines. -/
def cooked : Termios :=
  { iflag := icrnl ||| ixon
    oflag := opost
    cflag := cs8
    lflag := isig ||| icanon ||| echo ||| iexten
    line := 0
    cc := fun _ => 0
    ispeed := 15
    ospeed := 15 }

theorem restoretty_cooked : ∃ s, runFn (call 0) (State.init cooked fun _ => cooked)
    ([.rawtty true true] ++ [.restoretty true]) = some s ∧ s.term = cooked :=
  (restoretty_iff 0 cooked (fun _ => cooked) [.rawtty true true] true fun _ _ _ => rfl).mpr
    fun pre post m hcs => by
      cases pre <;> simp at hcs

/-- A `restoretty` that fails once makes the raw mode the one to go back to. -/
theorem restoretty_raw : ¬∃ s, runFn (call 0) (State.init cooked fun _ => cooked)
    ([.rawtty true true, .restoretty false, .rawtty true true] ++ [.restoretty true]) = some s ∧
      s.term = cooked := by
  rintro ⟨s, hs, hterm⟩
  have hflag := congrArg Termios.lflag hterm
  rw [← Option.some.inj hs] at hflag
  exact absurd hflag (by decide)

end XinuConsole.TtyMode
