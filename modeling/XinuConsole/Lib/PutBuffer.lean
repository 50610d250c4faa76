import Mathlib.Algebra.Order.Group.Int
import Mathlib.Data.List.Basic

/-!
Writers that put characters into a buffer, on a device that may take less than
it is given.

A full buffer of `cap` characters is handed to the device in front of the next
character, and what is left at the end. The buffer is emptied once the device
took all of it; after a short or failing write it stays as it is, so the next
write hands over the same characters again. The writer counts the characters of
its input and takes off what a write left over.
-/

namespace XinuConsole.Lib

/-- What becomes of one character of the input: no output, a call of the device
of another kind, one character of output, or two, where the first is put
whether or not there is room for it. -/
inductive Put (β : Type)
  | skip
  | call
  | one (x : β)
  | pair (x y : β)

namespace Put

variable {β γ : Type}

def map (f : β → γ) : Put β → Put γ
  | skip => skip
  | call => call
  | one x => one (f x)
  | pair x y => pair (f x) (f y)

def items : Put β → List β
  | skip | call => []
  | one x => [x]
  | pair x y => [x, y]

/-- The output that is asked for. -/
def output (ps : List (Put β)) : List β := ps.flatMap items

def isPair : Put β → Bool
  | pair _ _ => true
  | _ => false

/-- How many characters of output are more than the input has. -/
def pairs (ps : List (Put β)) : ℕ := ps.countP isPair

/-- A pair without its first character. -/
def single : Put β → Put β
  | pair _ y => one y
  | p => p

/-- The characters of the output replaced by their positions, from `n` on. -/
def number : List (Put β) → ℕ → List (Put ℕ)
  | [], _ => []
  | skip :: ps, n => skip :: number ps n
  | call :: ps, n => call :: number ps n
  | one _ :: ps, n => one n :: number ps (n + 1)
  | pair _ _ :: ps, n => pair n (n + 1) :: number ps (n + 2)

@[simp] theorem output_nil : output ([] : List (Put β)) = [] := rfl

@[simp] theorem output_cons (p : Put β) (ps : List (Put β)) :
    output (p :: ps) = p.items ++ output ps := rfl

theorem map_id : map (id : β → β) = id := by
  funext p
  cases p <;> rfl

theorem output_ne_nil {ps : List (Put β)} (h : pairs ps ≠ 0) : output ps ≠ [] := by
  obtain ⟨p, hp, hpair⟩ := List.countP_pos_iff.mp (Nat.pos_of_ne_zero h)
  intro hnil
  have hitems := List.flatMap_eq_nil_iff.mp hnil p hp
  cases p with
  | skip | call | one => exact absurd hpair (by simp [isPair])
  | pair x y => exact absurd hitems (by simp [items])

theorem length_output (ps : List (Put β)) :
    (output ps).length = (output (ps.map single)).length + pairs ps := by
  induction ps with
  | nil => rfl
  | cons p ps ih =>
      rw [List.map_cons, output_cons, output_cons, List.length_append, List.length_append, ih,
        pairs,
        pairs, List.countP_cons]
      cases p <;> simp [single, items, isPair] <;> omega

theorem output_single_iff (ps : List (Put β)) :
    output ps = output (ps.map single) ↔ pairs ps = 0 := by
  refine ⟨fun h => ?_, fun h => ?_⟩
  · have hlen := length_output ps
    rw [h] at hlen
    omega
  · have hsame : ∀ p ∈ ps, single p = id p := fun p hp => by
      have hpair := List.countP_eq_zero.mp h p hp
      cases p with
      | skip | call | one => rfl
      | pair x y => exact absurd rfl hpair
    rw [List.map_congr_left hsame, List.map_id]

theorem output_number (ps : List (Put β)) (n : ℕ) :
    output (number ps n) = List.range' n (output ps).length := by
  induction ps generalizing n with
  | nil => rfl
  | cons p ps ih =>
      cases p with
      | skip | call => exact ih n
      | one x => simp [number, items, ih, List.range'_succ]
      | pair x y => simp [number, items, ih, List.range'_succ]

/-- The positions name the characters. -/
theorem map_number (ps : List (Put β)) (n : ℕ) (f : ℕ → β)
    (hf : ∀ i (h : i < (output ps).length), f (n + i) = (output ps)[i]) :
    (number ps n).map (map f) = ps := by
  induction ps generalizing n with
  | nil => rfl
  | cons p ps ih =>
      cases p with
      | skip | call => exact congrArg _ (ih n hf)
      | one x =>
          have hx : f n = x := hf 0 (by simp [items])
          have hrest := ih (n + 1) fun i hi => by
            have := hf (i + 1) (by simpa [items] using hi)
            rw [show n + 1 + i = n + (i + 1) by omega, this]
            simp [items]
          simp [number, map, hx, hrest]
      | pair x y =>
          have hx : f n = x := hf 0 (by simp [items])
          have hy : f (n + 1) = y := hf 1 (by simp [items])
          have hrest := ih (n + 2) fun i hi => by
            have := hf (i + 2) (by simpa [items] using hi)
            rw [show n + 2 + i = n + (i + 2) by omega, this]
            simp [items]
          simp [number, map, hx, hy, hrest]

end Put

/-- The buffer, the number of calls of the device, what it accepted, and the
count that is returned. -/
structure Writer (β : Type) where
  buf : List β
  calls : ℕ
  accepted : List β
  count : ℤ

namespace Writer

variable {β γ : Type} (cap : ℕ)

/-! `write k n` is the answer of the device to the call number `k`, if it is a
write of `n` characters. -/
variable (write : ℕ → ℕ → ℤ)

def flush (w : Writer β) : Bool × Writer β :=
  if w.buf = [] then (true, w)
  else
    let rv := write w.calls w.buf.length
    if rv < w.buf.length then
      (false, { w with
        calls := w.calls + 1
        accepted := w.accepted ++ w.buf.take rv.toNat
        count := w.count - (w.buf.length - max rv 0) })
    else (true, { w with buf := [], calls := w.calls + 1, accepted := w.accepted ++ w.buf })

def put (x : β) (w : Writer β) : Bool × Writer β :=
  let r := if cap ≤ w.buf.length then w.flush write else (true, w)
  if r.1 then (true, { r.2 with buf := r.2.buf ++ [x], count := r.2.count + 1 }) else (false, r.2)

/-- One character of the input, and whether the writer goes on. -/
def handle : Put β → Writer β → Bool × Writer β
  | .skip, w => (true, { w with count := w.count + 1 })
  | .call, w => (true, { w with calls := w.calls + 1, count := w.count + 1 })
  | .one x, w => w.put cap write x
  | .pair x y, w => (w.put cap write x).2.put cap write y

def putAll : List (Put β) → Writer β → Bool × Writer β
  | [], w => (true, w)
  | p :: ps, w =>
      let r := w.handle cap write p
      if r.1 then putAll ps r.2 else (false, r.2)

/-- The whole input and the flush at the end. -/
def run (ps : List (Put β)) (w : Writer β) : Writer β := ((w.putAll cap write ps).2.flush write).2

/-- The device never takes more than it is given. -/
def Device (write : ℕ → ℕ → ℤ) : Prop := ∀ k n, write k n ≤ n

/-! ### Names for the characters -/

/-- The characters replaced by their images, behind `a` that was accepted before. -/
def map (a : List γ) (f : β → γ) (w : Writer β) : Writer γ :=
  ⟨w.buf.map f, w.calls, a ++ w.accepted.map f, w.count⟩

variable (a : List γ) (f : β → γ)

theorem flush_map (w : Writer β) :
    (w.map a f).flush write = ((w.flush write).1, (w.flush write).2.map a f) := by
  by_cases hbuf : w.buf = []
  · rw [flush, flush, if_pos hbuf, if_pos (by simp [map, hbuf])]
  · rw [flush, flush, if_neg hbuf, if_neg (by simpa [map] using hbuf)]
    simp only [map, List.length_map]
    split <;> simp

theorem put_map (x : β) (w : Writer β) :
    (w.map a f).put cap write (f x) = ((w.put cap write x).1, (w.put cap write x).2.map a f) := by
  rw [put, put, flush_map]
  simp only [map, List.length_map]
  split <;> (dsimp only; split <;> simp)

theorem handle_map (p : Put β) (w : Writer β) :
    (w.map a f).handle cap write (p.map f) =
      ((w.handle cap write p).1, (w.handle cap write p).2.map a f) := by
  cases p with
  | skip | call => rfl
  | one x => exact put_map cap write a f x w
  | pair x y =>
      show ((w.map a f).put cap write (f x)).2.put cap write (f y) = _
      rw [put_map]
      exact put_map cap write a f y _

theorem putAll_map (ps : List (Put β)) (w : Writer β) :
    (w.map a f).putAll cap write (ps.map (Put.map f)) =
      ((w.putAll cap write ps).1, (w.putAll cap write ps).2.map a f) := by
  induction ps generalizing w with
  | nil => rfl
  | cons p ps ih =>
      rw [List.map_cons, putAll, putAll, handle_map]
      dsimp only
      split
      · exact ih _
      · rfl

/-- A writer does not look at the characters. -/
theorem run_map (ps : List (Put β)) (w : Writer β) :
    (w.map a f).run cap write (ps.map (Put.map f)) = (w.run cap write ps).map a f := by
  rw [run, putAll_map, flush_map]
  rfl

/-! ### What one flush does -/

variable {cap write} {w : Writer β}

theorem run_cons_of_ok {p : Put β} {w' : Writer β}
    (h : w.handle cap write p = (true, w')) (ps : List (Put β)) :
    w.run cap write (p :: ps) = w'.run cap write ps := by
  rw [run, putAll, h]
  rfl

theorem run_pair (x y : β) (ps : List (Put β)) :
    w.run cap write (.pair x y :: ps) = (w.put cap write x).2.run cap write (.one y :: ps) := rfl

theorem flush_of_short (hbuf : w.buf ≠ []) (hrv : write w.calls w.buf.length < w.buf.length) :
    w.flush write = (false, { w with
      calls := w.calls + 1
      accepted := w.accepted ++ w.buf.take (write w.calls w.buf.length).toNat
      count := w.count - (w.buf.length - max (write w.calls w.buf.length) 0) }) := by
  rw [flush, if_neg hbuf, if_pos hrv]

theorem flush_of_taken (hbuf : w.buf ≠ []) (hrv : ¬write w.calls w.buf.length < w.buf.length) :
    w.flush write =
      (true, { w with buf := [], calls := w.calls + 1, accepted := w.accepted ++ w.buf }) := by
  rw [flush, if_neg hbuf, if_neg hrv]

/-- The device took everything. -/
def Emptied (w w' : Writer β) : Prop :=
  w'.buf = [] ∧ w'.accepted = w.accepted ++ w.buf ∧ w'.count = w.count

/-- The device left something over. -/
def Kept (w w' : Writer β) : Prop :=
  w'.buf = w.buf ∧ w'.count < w.count ∧
    ∃ r < w.buf.length, w'.accepted = w.accepted ++ w.buf.take r

variable (write) in
theorem flush_cases (w : Writer β) :
    ((w.flush write).1 = true ∧ Emptied w (w.flush write).2) ∨
      ((w.flush write).1 = false ∧ Kept w (w.flush write).2) := by
  by_cases hbuf : w.buf = []
  · rw [flush, if_pos hbuf]
    exact .inl ⟨rfl, hbuf, by rw [hbuf, List.append_nil], rfl⟩
  by_cases hrv : write w.calls w.buf.length < w.buf.length
  · have hpos := List.length_pos_iff.mpr hbuf
    rw [flush_of_short hbuf hrv]
    refine .inr ⟨rfl, rfl, ?_, (write w.calls w.buf.length).toNat, ?_, rfl⟩
    · dsimp only
      omega
    · omega
  · rw [flush_of_taken hbuf hrv]
    exact .inl ⟨rfl, rfl, rfl, rfl⟩

variable (write) in
theorem flush_accepted_prefix (w : Writer β) :
    (w.flush write).2.accepted <+: w.accepted ++ w.buf := by
  rcases w.flush_cases write with ⟨-, -, hall, -⟩ | ⟨-, -, -, r, -, hpart⟩
  · exact hall ▸ List.prefix_rfl
  · rw [hpart, List.prefix_append_right_inj]
    exact List.take_prefix _ _

variable (write) in
theorem flush_count_le (w : Writer β) : (w.flush write).2.count ≤ w.count := by
  rcases w.flush_cases write with ⟨-, -, -, hcount⟩ | ⟨-, -, hcount, -⟩
  · exact hcount.le
  · exact hcount.le

variable (write) in
theorem flush_calls_le (w : Writer β) : w.calls ≤ (w.flush write).2.calls := by
  unfold flush
  split
  · rfl
  · dsimp only
    split <;> simp

/-! ### Room for the whole output -/

theorem put_of_lt (hroom : w.buf.length < cap) (x : β) :
    w.put cap write x = (true, { w with buf := w.buf ++ [x], count := w.count + 1 }) := by
  rw [put, if_neg (Nat.not_le.mpr hroom)]
  rfl

variable (write) in
theorem handle_of_room (p : Put β) (hroom : w.buf.length + p.items.length ≤ cap) :
    let r := w.handle cap write p
    r.1 = true ∧ r.2.buf = w.buf ++ p.items ∧ r.2.accepted = w.accepted := by
  cases p with
  | skip | call => exact ⟨rfl, (List.append_nil _).symm, rfl⟩
  | one x =>
      have hx : w.buf.length < cap := hroom
      simp only [handle, put_of_lt hx]
      exact ⟨trivial, rfl, trivial⟩
  | pair x y =>
      have hlen : w.buf.length + 2 ≤ cap := hroom
      have hx : w.buf.length < cap := by omega
      simp only [handle, put_of_lt hx]
      rw [put_of_lt (by rw [List.length_append]; exact hlen)]
      exact ⟨rfl, List.append_assoc _ _ _, rfl⟩

variable (write) in
theorem putAll_of_room (ps : List (Put β)) (hroom : w.buf.length + (Put.output ps).length ≤ cap) :
    let r := w.putAll cap write ps
    r.1 = true ∧ r.2.buf = w.buf ++ Put.output ps ∧ r.2.accepted = w.accepted := by
  induction ps generalizing w with
  | nil => exact ⟨rfl, (List.append_nil _).symm, rfl⟩
  | cons p ps ih =>
      rw [Put.output_cons, List.length_append] at hroom
      have hp : w.buf.length + p.items.length ≤ cap := by omega
      obtain ⟨hok, hbuf, hacc⟩ := handle_of_room write p hp
      obtain ⟨hok', hbuf', hacc'⟩ := ih (w := (w.handle cap write p).2) (by
        rw [hbuf, List.length_append]
        omega)
      simp only [putAll, hok, if_true]
      refine ⟨hok', ?_, hacc'.trans hacc⟩
      rw [hbuf', hbuf, Put.output_cons, List.append_assoc]

/-- With room for the whole output only the last write can be short. -/
theorem run_prefix_of_room (ps : List (Put β)) (k : ℕ) (c : ℤ)
    (hroom : (Put.output ps).length ≤ cap) :
    ((⟨[], k, [], c⟩ : Writer β).run cap write ps).accepted <+: Put.output ps := by
  have hroom' : (⟨[], k, [], c⟩ : Writer β).buf.length + (Put.output ps).length ≤ cap := by
    simpa using hroom
  obtain ⟨-, hbuf, hacc⟩ := putAll_of_room write ps hroom'
  have h := flush_accepted_prefix write ((⟨[], k, [], c⟩ : Writer β).putAll cap write ps).2
  rw [hbuf, hacc] at h
  exact h

/-! ### Full buffers that are always taken -/

section Full

variable (hfull : ∀ k, (cap : ℤ) ≤ write k cap)
include hfull

theorem put_of_full (hcap : 0 < cap) (hlen : w.buf.length ≤ cap) (x : β) :
    let r := w.put cap write x
    r.1 = true ∧ r.2.accepted ++ r.2.buf = w.accepted ++ w.buf ++ [x] ∧
      r.2.buf.length ≤ cap ∧ r.2.buf ≠ [] ∧ r.2.count = w.count + 1 := by
  rcases Nat.lt_or_ge w.buf.length cap with hlt | hge
  · rw [put_of_lt hlt]
    refine ⟨rfl, (List.append_assoc _ _ _).symm, ?_, by simp, rfl⟩
    rw [List.length_append]
    exact hlt
  · have hcap' : w.buf.length = cap := by omega
    have hne : w.buf ≠ [] := List.length_pos_iff.mp (by omega)
    have htaken : ¬write w.calls w.buf.length < w.buf.length := by
      have := hfull w.calls
      rw [hcap']
      omega
    simp only [put, if_pos hge, flush, if_neg hne, if_neg htaken, if_true]
    exact ⟨trivial, rfl, hcap, by simp, trivial⟩

theorem handle_of_full (hcap : 0 < cap) (p : Put β) (hlen : w.buf.length ≤ cap) :
    let r := w.handle cap write p
    r.1 = true ∧ r.2.accepted ++ r.2.buf = w.accepted ++ w.buf ++ p.items ∧
      r.2.buf.length ≤ cap ∧ (w.buf ++ p.items ≠ [] → r.2.buf ≠ []) ∧
      r.2.count = w.count + 1 + Put.pairs [p] := by
  cases p with
  | skip | call =>
      refine ⟨rfl, (List.append_nil _).symm, hlen, fun h => ?_, ?_⟩
      · rwa [Put.items, List.append_nil] at h
      · simp [handle, Put.pairs, Put.isPair]
  | one x =>
      obtain ⟨hok, hacc, hbuf, hne, hcount⟩ := put_of_full hfull hcap hlen x
      refine ⟨hok, hacc, hbuf, fun _ => hne, ?_⟩
      rw [handle, hcount]
      simp [Put.pairs, Put.isPair]
  | pair x y =>
      obtain ⟨-, hacc, hbuf, -, hcount⟩ := put_of_full hfull hcap hlen x
      obtain ⟨hok', hacc', hbuf', hne', hcount'⟩ := put_of_full hfull hcap hbuf y
      refine ⟨hok', ?_, hbuf', fun _ => hne', ?_⟩
      · rw [handle, hacc', hacc, List.append_assoc]
        rfl
      · rw [handle, hcount', hcount]
        simp [Put.pairs, Put.isPair]

/-- Nothing is lost in front of the last write. -/
theorem putAll_of_full (hcap : 0 < cap) (ps : List (Put β)) (hlen : w.buf.length ≤ cap) :
    let r := w.putAll cap write ps
    r.1 = true ∧ r.2.accepted ++ r.2.buf = w.accepted ++ w.buf ++ Put.output ps ∧
      (w.buf ++ Put.output ps ≠ [] → r.2.buf ≠ []) ∧
      r.2.count = w.count + ps.length + Put.pairs ps := by
  induction ps generalizing w with
  | nil => exact ⟨rfl, by simp [putAll], by simp [putAll], by simp [putAll, Put.pairs]⟩
  | cons p ps ih =>
      obtain ⟨hok, hacc, hbuf, hne, hcount⟩ := handle_of_full hfull hcap p hlen
      obtain ⟨hok', hacc', hne', hcount'⟩ := ih hbuf
      simp only [putAll, hok, if_true]
      refine ⟨hok', ?_, fun h => hne' ?_, ?_⟩
      · rw [hacc', hacc, Put.output_cons, List.append_assoc]
      · by_cases hp : w.buf ++ p.items = []
        · rw [Put.output_cons, ← List.append_assoc, hp] at h
          exact fun hnil => h (List.append_eq_nil_iff.mp hnil).2
        · exact fun hnil => hne hp (List.append_eq_nil_iff.mp hnil).1
      · rw [hcount', hcount, List.length_cons, Put.pairs, Put.pairs, Put.pairs,
          List.countP_cons, List.countP_cons, List.countP_nil]
        push_cast
        omega

/-- A writer whose full buffers are always taken sends a prefix of the output. -/
theorem run_prefix_of_full (hcap : 0 < cap) (ps : List (Put β)) (k : ℕ) (c : ℤ) :
    ((⟨[], k, [], c⟩ : Writer β).run cap write ps).accepted <+: Put.output ps := by
  obtain ⟨-, hacc, -, -⟩ := putAll_of_full (w := ⟨[], k, [], c⟩) hfull hcap ps (Nat.zero_le _)
  have h := flush_accepted_prefix write ((⟨[], k, [], c⟩ : Writer β).putAll cap write ps).2
  rw [hacc] at h
  exact h

end Full

/-! ### Output that is longer than the buffer -/

/-- A device that takes one character of every write. -/
def stingy (_ n : ℕ) : ℤ := (min 1 n : ℕ)

theorem stingy_device : Device stingy := fun k n => by simp [stingy]

theorem flush_stingy {x : β} {bs : List β} (hbuf : w.buf = x :: bs) (hbs : bs ≠ []) :
    (w.flush stingy).1 = false ∧ (w.flush stingy).2.buf = x :: bs ∧
      (w.flush stingy).2.accepted = w.accepted ++ [x] := by
  have hpos := List.length_pos_iff.mpr hbs
  have hone : stingy w.calls w.buf.length = 1 := by
    rw [hbuf, List.length_cons, stingy, min_eq_left (by omega)]
    rfl
  have hshort : stingy w.calls w.buf.length < w.buf.length := by
    rw [hone, hbuf, List.length_cons]
    omega
  rw [flush_of_short (by simp [hbuf]) hshort, hone]
  exact ⟨rfl, hbuf, by rw [hbuf]; rfl⟩

theorem put_stingy {x : β} {bs : List β} (hbuf : w.buf = x :: bs) (hbs : bs ≠ [])
    (hlen : cap ≤ w.buf.length) (y : β) : w.put cap stingy y = w.flush stingy := by
  obtain ⟨hok, -⟩ := flush_stingy hbuf hbs
  simp only [put, if_pos hlen, hok, Bool.false_eq_true, if_false]
  exact Prod.ext hok.symm rfl

/-- The first character of a full buffer is accepted by the write that is short,
and again by the next one. -/
theorem run_stingy_of_full {x : β} {bs : List β} {p : Put β} (hbuf : w.buf = x :: bs)
    (hbs : bs ≠ []) (hlen : cap ≤ w.buf.length) (hp : p.items ≠ []) (ps : List (Put β)) :
    w.accepted ++ [x, x] <+: (w.run cap stingy (p :: ps)).accepted := by
  obtain ⟨hok, hbuf₁, hacc₁⟩ := flush_stingy hbuf hbs
  obtain ⟨hok₂, hbuf₂, hacc₂⟩ := flush_stingy hbuf₁ hbs
  cases p with
  | skip | call => exact absurd rfl hp
  | one y =>
      have hput := put_stingy hbuf hbs hlen y
      simp only [run, putAll, handle, hput, hok, Bool.false_eq_true, if_false]
      rw [hacc₂, hacc₁, List.append_assoc]
      exact List.prefix_rfl
  | pair y z =>
      have hput := put_stingy hbuf hbs hlen y
      have hlen₁ : cap ≤ (w.flush stingy).2.buf.length := by
        rw [hbuf₁, ← hbuf]
        exact hlen
      have hput' := put_stingy hbuf₁ hbs hlen₁ z
      obtain ⟨-, -, hacc₃⟩ := flush_stingy hbuf₂ hbs
      simp only [run, putAll, handle, hput, hput', hok₂, Bool.false_eq_true, if_false]
      rw [hacc₃, hacc₂, hacc₁, List.append_assoc, List.append_assoc]
      exact ⟨[x], by simp⟩

theorem full_head (hcap : 2 ≤ cap) {buf out : List β} {x : β} {rest : List β}
    (hout : buf ++ out = x :: rest) (hlen : cap ≤ buf.length) : ∃ bs, buf = x :: bs ∧ bs ≠ [] := by
  cases buf with
  | nil => exact absurd hlen (by simp; omega)
  | cons y bs =>
      refine ⟨bs, by rw [(List.cons.inj hout).1], fun hbs => ?_⟩
      rw [hbs, List.length_singleton] at hlen
      omega

theorem run_stingy (hcap : 2 ≤ cap) {x : β} {rest : List β} (ps : List (Put β))
    (hout : w.buf ++ Put.output ps = x :: rest) (hlong : cap ≤ rest.length)
    (hlen : w.buf.length ≤ cap) :
    w.accepted ++ [x, x] <+: (w.run cap stingy ps).accepted := by
  induction ps generalizing w with
  | nil =>
      rw [Put.output_nil, List.append_nil] at hout
      rw [hout, List.length_cons] at hlen
      omega
  | cons p ps ih =>
      have hone : ∀ {w : Writer β} {y : β}, w.buf ++ Put.output (.one y :: ps) = x :: rest →
          w.buf.length ≤ cap → w.accepted ++ [x, x] <+:
            (w.run cap stingy (.one y :: ps)).accepted := by
        intro w y hout hlen
        rcases Nat.lt_or_ge w.buf.length cap with hlt | hge
        · have hput : w.handle cap stingy (.one y) = _ := put_of_lt hlt y
          rw [run_cons_of_ok hput]
          apply ih (w := { w with buf := w.buf ++ [y], count := w.count + 1 })
          · rw [← hout]
            exact List.append_assoc _ _ _
          · rw [List.length_append]
            exact hlt
        · obtain ⟨bs, hbuf, hbs⟩ := full_head hcap hout hge
          exact run_stingy_of_full (p := .one y) hbuf hbs hge (by simp [Put.items]) ps
      cases p with
      | skip => exact ih (w := { w with count := w.count + 1 }) hout hlen
      | call => exact ih (w := { w with calls := w.calls + 1, count := w.count + 1 }) hout hlen
      | one y => exact hone hout hlen
      | pair y z =>
          rcases Nat.lt_or_ge w.buf.length cap with hlt | hge
          · -- the second character may be the one that does not fit
            rw [run_pair, put_of_lt hlt]
            apply hone (w := { w with buf := w.buf ++ [y], count := w.count + 1 })
            · rw [← hout]
              exact List.append_assoc _ _ _
            · rw [List.length_append]
              exact hlt
          · obtain ⟨bs, hbuf, hbs⟩ := full_head hcap hout hge
            exact run_stingy_of_full (p := .pair y z) hbuf hbs hge (by simp [Put.items]) ps

/-- **Characters twice.** On every device and at every time a writer sends a prefix
of its output if and only if all of it fits into the buffer. -/
theorem run_number_prefix_iff (hcap : 2 ≤ cap) (ps : List (Put β)) (k : ℕ) (c : ℤ) :
    (∀ write, Device write → ((⟨[], k, [], c⟩ : Writer ℕ).run cap write (Put.number ps 0)).accepted
        <+: List.range (Put.output ps).length) ↔
      (Put.output ps).length ≤ cap := by
  have hout : Put.output (Put.number ps 0) = List.range (Put.output ps).length := by
    rw [Put.output_number, List.range_eq_range']
  refine ⟨fun h => ?_, fun hroom write _ => ?_⟩
  · by_contra hlong
    obtain ⟨n, hn⟩ : ∃ n, (Put.output ps).length = n + 1 := ⟨_, (Nat.succ_pred (by omega)).symm⟩
    rw [hn, List.range_succ_eq_map] at hout
    have hjam := run_stingy (w := ⟨[], k, [], c⟩) hcap (Put.number ps 0) hout
      (by rw [List.length_map, List.length_range]; omega) (Nat.zero_le _)
    have hprefix := hjam.trans (h stingy stingy_device)
    rw [hn, List.range_succ_eq_map] at hprefix
    obtain ⟨-, hprefix⟩ := List.cons_prefix_cons.mp hprefix
    cases n with
    | zero => omega
    | succ n => simp [List.range_succ_eq_map] at hprefix
  · rw [← hout]
    refine run_prefix_of_room _ k c ?_
    rw [hout, List.length_range]
    exact hroom

/-! ### The count -/

theorem put_cases (w : Writer β) (x : β) :
    let r := w.put cap write x
    (r.1 = true ∧ r.2.accepted ++ r.2.buf = w.accepted ++ w.buf ++ [x] ∧
        r.2.count = w.count + 1) ∨
      (r.1 = false ∧ r.2.count < w.count) := by
  rcases Nat.lt_or_ge w.buf.length cap with hlt | hge
  · rw [put_of_lt hlt]
    exact .inl ⟨rfl, (List.append_assoc _ _ _).symm, rfl⟩
  · rcases w.flush_cases write with ⟨hok, hbuf, hacc, hcount⟩ | ⟨hok, -, hcount, -⟩
    · simp only [put, if_pos hge, hok, hbuf, hacc, hcount, if_true]
      exact .inl ⟨trivial, rfl, trivial⟩
    · simp only [put, if_pos hge, hok, Bool.false_eq_true, if_false]
      exact .inr ⟨trivial, hcount⟩

variable (cap write) in
/-- Without pairs the count falls behind the input as soon as a write is short. -/
theorem putAll_cases (ps : List (Put β)) (hpairs : Put.pairs ps = 0) (w : Writer β) :
    let r := w.putAll cap write ps
    (r.1 = true ∧ r.2.accepted ++ r.2.buf = w.accepted ++ w.buf ++ Put.output ps ∧
        r.2.count = w.count + ps.length) ∨
      (r.1 = false ∧ r.2.count < w.count + ps.length) := by
  induction ps generalizing w with
  | nil => exact .inl ⟨rfl, by simp [putAll], by simp [putAll]⟩
  | cons p ps ih =>
      have hstep : let r := w.handle cap write p
          (r.1 = true ∧ r.2.accepted ++ r.2.buf = w.accepted ++ w.buf ++ p.items ∧
              r.2.count = w.count + 1) ∨ (r.1 = false ∧ r.2.count < w.count) := by
        cases p with
        | skip | call => exact .inl ⟨rfl, (List.append_nil _).symm, rfl⟩
        | one x => exact w.put_cases x
        | pair x y => exact absurd hpairs (by simp [Put.pairs, Put.isPair])
      rw [Put.pairs, List.countP_cons, Nat.add_eq_zero_iff] at hpairs
      rw [List.length_cons]
      push_cast
      rcases hstep with ⟨hok, hacc, hcount⟩ | ⟨hok, hcount⟩
      · rcases ih hpairs.1 (w.handle cap write p).2 with ⟨hok', hacc', hcount'⟩ | ⟨hok', hcount'⟩
        · simp only [putAll, hok, if_true]
          refine .inl ⟨hok', ?_, by omega⟩
          rw [hacc', hacc, Put.output_cons, List.append_assoc]
        · simp only [putAll, hok, if_true]
          exact .inr ⟨hok', by omega⟩
      · simp only [putAll, hok, Bool.false_eq_true, if_false]
        exact .inr ⟨trivial, by omega⟩

/-- Without pairs a count of the whole input means that nothing was lost. -/
theorem run_accepted_of_count (ps : List (Put β)) (hpairs : Put.pairs ps = 0) (w : Writer β)
    (hcount : w.count + ps.length ≤ (w.run cap write ps).count) :
    (w.run cap write ps).accepted = w.accepted ++ w.buf ++ Put.output ps := by
  rw [run] at hcount ⊢
  have hle := flush_count_le write (w.putAll cap write ps).2
  rcases w.putAll_cases cap write ps hpairs with
    ⟨-, hacc, hall⟩ | ⟨-, hless⟩
  · rcases (w.putAll cap write ps).2.flush_cases write with
      ⟨-, -, hflush, -⟩ | ⟨-, -, hless, -⟩
    · rw [hflush, hacc]
    · omega
  · omega

/-! ### A short last write -/

theorem put_calls_le (w : Writer β) (x : β) : w.calls ≤ (w.put cap write x).2.calls := by
  have hflush := w.flush_calls_le write
  unfold put
  split
  · dsimp only
    split <;> exact hflush
  · rfl

theorem handle_calls_le (w : Writer β) (p : Put β) : w.calls ≤ (w.handle cap write p).2.calls := by
  cases p with
  | skip => exact le_rfl
  | call => exact Nat.le_succ _
  | one x => exact w.put_calls_le x
  | pair x y => exact (w.put_calls_le x).trans (put_calls_le _ y)

theorem putAll_calls_le (ps : List (Put β)) (w : Writer β) :
    w.calls ≤ (w.putAll cap write ps).2.calls := by
  induction ps generalizing w with
  | nil => exact le_rfl
  | cons p ps ih =>
      rw [putAll]
      split
      · exact (w.handle_calls_le p).trans (ih _)
      · exact w.handle_calls_le p

variable {write' : ℕ → ℕ → ℤ}

/-- Only the calls that are made matter. -/
theorem flush_congr (w : Writer β) (h : ∀ k < (w.flush write).2.calls, write' k = write k) :
    w.flush write' = w.flush write := by
  by_cases hbuf : w.buf = []
  · rw [flush, if_pos hbuf, flush, if_pos hbuf]
  · have hcalls : (w.flush write).2.calls = w.calls + 1 := by
      rw [flush, if_neg hbuf]
      dsimp only
      split <;> rfl
    have hrv := h w.calls (by rw [hcalls]; exact Nat.lt_succ_self _)
    rw [flush, flush, hrv]

theorem put_congr (w : Writer β) (x : β)
    (h : ∀ k < (w.put cap write x).2.calls, write' k = write k) :
    w.put cap write' x = w.put cap write x := by
  rcases Nat.lt_or_ge w.buf.length cap with hlt | hge
  · rw [put_of_lt hlt, put_of_lt hlt]
  · have hcalls : (w.put cap write x).2.calls = (w.flush write).2.calls := by
      simp only [put, if_pos hge]
      split <;> rfl
    rw [hcalls] at h
    simp only [put, if_pos hge, w.flush_congr h]

theorem handle_congr (w : Writer β) (p : Put β)
    (h : ∀ k < (w.handle cap write p).2.calls, write' k = write k) :
    w.handle cap write' p = w.handle cap write p := by
  cases p with
  | skip | call => rfl
  | one x => exact w.put_congr x h
  | pair x y =>
      have hx := w.put_congr x fun k hk => h k (hk.trans_le (put_calls_le _ y))
      rw [handle, handle, hx]
      exact put_congr _ y h

theorem putAll_congr (ps : List (Put β)) (w : Writer β)
    (h : ∀ k < (w.putAll cap write ps).2.calls, write' k = write k) :
    w.putAll cap write' ps = w.putAll cap write ps := by
  induction ps generalizing w with
  | nil => rfl
  | cons p ps ih =>
      rw [putAll] at h
      have hp : w.handle cap write' p = w.handle cap write p := by
        apply handle_congr
        intro k hk
        apply h k
        split
        · exact hk.trans_le (putAll_calls_le ps _)
        · exact hk
      rw [putAll, putAll, hp]
      split
      · rename_i hok
        rw [if_pos hok] at h
        exact ih _ h
      · rfl

/-- A device that takes everything. -/
def complete (_ n : ℕ) : ℤ := n

/-- A device that leaves one character over in every write from the call number
`last` on. -/
def failing (last k n : ℕ) : ℤ := if k < last then n else n - 1

/-- With a pair a short write can be made up for in the count. -/
theorem exists_run_short (hcap : 0 < cap) (ps : List (Put β)) (hpairs : Put.pairs ps ≠ 0) (k : ℕ) :
    ∃ last, ((⟨[], k, [], 0⟩ : Writer β).run cap (failing last) ps).count
        = ps.length + Put.pairs ps - 1 ∧
      ((⟨[], k, [], 0⟩ : Writer β).run cap (failing last) ps).accepted ≠ Put.output ps := by
  have hfull : ∀ k, (cap : ℤ) ≤ complete k cap := fun _ => le_rfl
  obtain ⟨-, hacc, hne, hcount⟩ :=
    putAll_of_full (w := ⟨[], k, [], 0⟩) hfull hcap ps (Nat.zero_le _)
  set w := ((⟨[], k, [], 0⟩ : Writer β).putAll cap complete ps).2 with hw
  refine ⟨w.calls, ?_⟩
  have hsame : (⟨[], k, [], 0⟩ : Writer β).putAll cap (failing w.calls) ps =
      (⟨[], k, [], 0⟩ : Writer β).putAll cap complete ps := by
    apply putAll_congr
    intro k hk
    funext n
    exact if_pos hk
  have hbuf : w.buf ≠ [] := by
    apply hne
    exact Put.output_ne_nil hpairs
  have hpos := List.length_pos_iff.mpr hbuf
  have hrv : failing w.calls w.calls w.buf.length = w.buf.length - 1 := if_neg (lt_irrefl _)
  have hrun : (⟨[], k, [], 0⟩ : Writer β).run cap (failing w.calls) ps
      = (w.flush (failing w.calls)).2 := by
    rw [run, hsame]
  rw [hrun, flush_of_short hbuf (by omega), hrv]
  refine ⟨?_, fun hall => ?_⟩
  · dsimp only at hcount ⊢
    rw [hcount]
    omega
  · have hlen := congrArg List.length (hall.trans hacc.symm)
    simp only [List.length_append, List.length_take] at hlen
    omega

/-- **Lost characters.** A count of the whole input means on every device that the
whole output was accepted if and only if no character of the input became two. -/
theorem run_count_iff (hcap : 0 < cap) (ps : List (Put β)) (k : ℕ) :
    (∀ write, Device write →
        (ps.length : ℤ) ≤ ((⟨[], k, [], 0⟩ : Writer β).run cap write ps).count →
        ((⟨[], k, [], 0⟩ : Writer β).run cap write ps).accepted = Put.output ps) ↔
      Put.pairs ps = 0 := by
  refine ⟨fun h => ?_, fun hpairs write _ hcount => ?_⟩
  · by_contra hpairs
    obtain ⟨last, hcount, hlost⟩ := exists_run_short hcap ps hpairs k
    refine hlost (h (failing last) (fun k n => ?_) ?_)
    · rw [failing]
      split <;> omega
    · rw [hcount]
      omega
  · exact run_accepted_of_count ps hpairs _ (by simpa using hcount)

end Writer

end XinuConsole.Lib
