import Mathlib.Data.List.Basic

/-!
A byte-stuffing code with one out-of-band signal, and a writer that delays data
but not signals.

Over an alphabet `α`, a stream of data is sent with the escape symbol doubled;
the escape symbol followed by the command symbol stands for a signal. `decode`
reads such a stream from left to right and may expand a symbol outside an
escape into several.

`delayed cap` is what leaves a writer that collects data in a buffer of
capacity `cap`, empties it when the next symbol does not fit and at the end, and
passes signals on at once. `delayed_eq_iff` says when that is the order in
which things came.
-/

namespace XinuConsole.Lib

/-- What a stream is made of. -/
inductive Item (α : Type) : Type
  | data (a : α)
  | signal
  deriving DecidableEq

/-- The data of a stream, without its signals. -/
def payload {α : Type} : List (Item α) → List α
  | [] => []
  | .data a :: is => a :: payload is
  | .signal :: is => payload is

theorem payload_append {α : Type} (is js : List (Item α)) :
    payload (is ++ js) = payload is ++ payload js := by
  induction is with
  | nil => rfl
  | cons i is ih =>
      cases i with
      | data a => exact congrArg (a :: ·) ih
      | signal => exact ih

@[simp] theorem payload_map_data {α : Type} (as : List α) : payload (as.map .data) = as := by
  induction as with
  | nil => rfl
  | cons a as ih => exact congrArg (a :: ·) ih

/-- Data that is expanded on its way. -/
def Item.expand {α : Type} (expand : α → List α) : Item α → List (Item α)
  | .data a => (expand a).map .data
  | .signal => [.signal]

/-- The two special symbols of a code. -/
structure EscapeCode (α : Type) where
  esc : α
  command : α
  distinct : esc ≠ command

namespace EscapeCode

variable {α : Type} [DecidableEq α] (c : EscapeCode α)

/-- The code of a list of data. -/
def encode (as : List α) : List α := as.flatMap fun a => if a = c.esc then [a, c.esc] else [a]

/-- The code of a stream with signals. -/
def encodeItems : List (Item α) → List α
  | [] => []
  | .data a :: is => c.encode [a] ++ encodeItems is
  | .signal :: is => [c.esc, c.command] ++ encodeItems is

/-- The same where of the signals only so many symbols are sent as the list says. -/
def encodeShort : List (Item α) → List ℕ → List α
  | [], _ => []
  | .data a :: is, ns => c.encode [a] ++ encodeShort is ns
  | .signal :: is, ns => [c.esc, c.command].take (ns.headD 0) ++ encodeShort is ns.tail

/-- Decoding; the first argument says whether an escape symbol was just read,
`expand` is applied to the symbols outside escapes. -/
def decode (expand : α → List α) : Bool → List α → List (Item α)
  | _, [] => []
  | false, a :: as =>
      if a = c.esc then decode expand true as
      else (expand a).map .data ++ decode expand false as
  | true, a :: as =>
      if a = c.command then .signal :: decode expand false as
      else .data a :: decode expand false as

/-- Whether an escape symbol was just read after a stream. -/
def pending : Bool → List α → Bool
  | b, [] => b
  | false, a :: as => pending (a = c.esc) as
  | true, _ :: as => pending false as

theorem decode_append (expand : α → List α) (b : Bool) (as bs : List α) :
    c.decode expand b (as ++ bs) =
      c.decode expand b as ++ c.decode expand (c.pending b as) bs := by
  induction as generalizing b with
  | nil => cases b <;> simp [decode, pending]
  | cons a as ih =>
      cases b with
      | false =>
          by_cases ha : a = c.esc
          · simp [decode, pending, ha, ih]
          · simp [decode, pending, ha, ih]
      | true =>
          by_cases ha : a = c.command
          · simp [decode, pending, ha, ih]
          · simp [decode, pending, ha, ih]

theorem pending_append (b : Bool) (as bs : List α) :
    c.pending b (as ++ bs) = c.pending (c.pending b as) bs := by
  induction as generalizing b with
  | nil => cases b <;> rfl
  | cons a as ih => cases b <;> simp [pending, ih]

theorem encode_append (as bs : List α) : c.encode (as ++ bs) = c.encode as ++ c.encode bs := by
  simp [encode]

theorem encodeItems_append (is js : List (Item α)) :
    c.encodeItems (is ++ js) = c.encodeItems is ++ c.encodeItems js := by
  induction is with
  | nil => rfl
  | cons i is ih => cases i <;> simp [encodeItems, ih]

theorem encode_of_not_mem {as : List α} (h : c.esc ∉ as) : c.encode as = as := by
  induction as with
  | nil => rfl
  | cons a as ih =>
      rw [List.mem_cons, not_or] at h
      rw [show c.encode (a :: as) = c.encode [a] ++ c.encode as from c.encode_append [a] as, ih h.2]
      simp [encode, Ne.symm h.1]

/-- Decoding takes the code of data back to the data. -/
theorem decode_encode (as : List α) :
    c.decode (fun a => [a]) false (c.encode as) = as.map .data := by
  induction as with
  | nil => rfl
  | cons a as ih =>
      rw [show c.encode (a :: as) = c.encode [a] ++ c.encode as from c.encode_append [a] as,
        decode_append]
      by_cases ha : a = c.esc
      · subst ha
        simp [encode, decode, pending, c.distinct] at ih ⊢
        exact ih
      · simp [encode, decode, pending, ha] at ih ⊢
        exact ih

/-- Decoding takes the code of a stream back to the stream, and the code ends
outside an escape. -/
theorem decode_encodeItems (is : List (Item α)) :
    c.decode (fun a => [a]) false (c.encodeItems is) = is ∧
      c.pending false (c.encodeItems is) = false := by
  induction is with
  | nil => exact ⟨rfl, rfl⟩
  | cons i is ih =>
      have hcode : ∀ code, c.decode (fun a => [a]) false code = [i] → c.pending false code = false →
          c.decode (fun a => [a]) false (code ++ c.encodeItems is) = i :: is ∧
            c.pending false (code ++ c.encodeItems is) = false := by
        intro code hdecode hpending
        rw [decode_append, pending_append, hdecode, hpending, ih.1, ih.2]
        exact ⟨rfl, rfl⟩
      cases i with
      | data a =>
          refine hcode (c.encode [a]) (c.decode_encode [a]) ?_
          by_cases ha : a = c.esc <;> simp [encode, pending, ha]
      | signal =>
          apply hcode
          · simp [decode]
          · simp [pending]

/-- The same for a decoder that expands data: the escape symbol, which is decoded
behind another one, must stay as it is. -/
theorem decode_encodeItems_expand {expand : α → List α} (hesc : expand c.esc = [c.esc])
    (is : List (Item α)) :
    c.decode expand false (c.encodeItems is) = is.flatMap (Item.expand expand) := by
  induction is with
  | nil => rfl
  | cons i is ih =>
      rw [List.flatMap_cons, ← ih]
      cases i with
      | data a =>
          rw [encodeItems, decode_append]
          by_cases ha : a = c.esc
          · subst ha
            simp [encode, decode, pending, c.distinct, Item.expand, hesc]
          · simp [encode, decode, pending, ha, Item.expand]
      | signal => simp [encodeItems, decode, Item.expand]

theorem length_encodeShort_le (is : List (Item α)) (ns : List ℕ) :
    (c.encodeShort is ns).length ≤ (c.encodeItems is).length := by
  induction is generalizing ns with
  | nil => exact Nat.le_refl _
  | cons i is ih =>
      cases i with
      | data a =>
          rw [encodeShort, encodeItems, List.length_append, List.length_append]
          exact Nat.add_le_add_left (ih ns) _
      | signal =>
          rw [encodeShort, encodeItems, List.length_append, List.length_append]
          exact Nat.add_le_add (List.length_take_le' _ _) (ih ns.tail)

/-- The whole code is sent if and only if all signals are sent whole. -/
theorem encodeShort_eq_iff {is : List (Item α)} {ns : List ℕ} (hns : ns.length = is.count .signal) :
    c.encodeShort is ns = c.encodeItems is ↔ ∀ n ∈ ns, 2 ≤ n := by
  induction is generalizing ns with
  | nil =>
      obtain rfl : ns = [] := List.length_eq_zero_iff.mp hns
      simp [encodeShort, encodeItems]
  | cons i is ih =>
      cases i with
      | data a =>
          rw [encodeShort, encodeItems, List.append_right_inj]
          exact ih (by simpa using hns)
      | signal =>
          cases ns with
          | nil => simp at hns
          | cons n ns =>
              have hlen := c.length_encodeShort_le is ns
              have ih := @ih ns (by simpa using hns)
              rw [List.forall_mem_cons, ← ih, encodeShort, encodeItems]
              refine ⟨fun h => ?_, fun ⟨hn, h⟩ => ?_⟩
              · have hn : 2 ≤ n := by
                  have := congrArg List.length h
                  simp only [List.length_append, List.length_take, List.headD_cons, List.tail_cons,
                    List.length_cons, List.length_nil] at this
                  omega
                have htake : [c.esc, c.command].take n = [c.esc, c.command] :=
                  List.take_of_length_le hn
                rw [List.headD_cons, htake, List.append_right_inj] at h
                exact ⟨hn, h⟩
              · rw [List.headD_cons, List.take_of_length_le (by exact hn), List.tail_cons, h]

/-- The items of a stream that is read in chunks. -/
def decodeChunks (expand : α → List α) : Bool → List (List α) → List (List (Item α))
  | _, [] => []
  | b, as :: chunks => c.decode expand b as :: decodeChunks expand (c.pending b as) chunks

theorem flatten_decodeChunks (expand : α → List α) (b : Bool) (chunks : List (List α)) :
    (c.decodeChunks expand b chunks).flatten = c.decode expand b chunks.flatten := by
  induction chunks generalizing b with
  | nil => cases b <;> rfl
  | cons as chunks ih => simp [decodeChunks, decode_append, ih]

end EscapeCode

/-! ### Delayed data -/

section Delayed

variable {α : Type}

/-- The output of the writer with `held` in its buffer. -/
def delayed (cap : ℕ) : List α → List (Item α) → List (Item α)
  | held, [] => held.map .data
  | held, .data a :: is =>
      if cap ≤ held.length then held.map .data ++ delayed cap [a] is
      else delayed cap (held ++ [a]) is
  | held, .signal :: is => .signal :: delayed cap held is

/-- No signal comes after data. -/
def SignalsFirst (is : List (Item α)) : Prop :=
  ∀ pre post, is = pre ++ .signal :: post → ∀ a, .data a ∉ pre

theorem signalsFirst_signal {is : List (Item α)} :
    SignalsFirst (.signal :: is) ↔ SignalsFirst is := by
  constructor
  · intro h pre post his a ha
    exact h (.signal :: pre) post (by rw [his]; rfl) a (List.mem_cons_of_mem _ ha)
  · intro h pre post his a ha
    cases pre with
    | nil => exact absurd ha (by simp)
    | cons i pre =>
        obtain ⟨rfl, rfl⟩ := List.cons.inj his
        rcases List.mem_cons.mp ha with ha | ha
        · exact absurd ha (by simp)
        · exact h pre post rfl a ha

theorem signalsFirst_data {a : α} {is : List (Item α)} :
    SignalsFirst (.data a :: is) ↔ .signal ∉ is := by
  constructor
  · intro h hs
    obtain ⟨pre, post, rfl⟩ := List.append_of_mem hs
    exact h (.data a :: pre) post rfl a List.mem_cons_self
  · intro h pre post his b hb
    cases pre with
    | nil => exact absurd hb (by simp)
    | cons i pre =>
        obtain ⟨-, rfl⟩ := List.cons.inj his
        exact h (by simp)

theorem signalsFirst_of_not_mem {is : List (Item α)} (h : .signal ∉ is) : SignalsFirst is :=
  fun pre post his => absurd (by rw [his]; simp) h

theorem length_delayed (cap : ℕ) (held : List α) (is : List (Item α)) :
    (delayed cap held is).length = held.length + is.length := by
  induction is generalizing held with
  | nil => simp [delayed]
  | cons i is ih =>
      cases i with
      | data a =>
          unfold delayed
          split
          · simp [ih]
            omega
          · simp [ih]
            omega
      | signal =>
          simp [delayed, ih]
          omega

/-- Delaying keeps the data and the number of signals. -/
theorem payload_delayed (cap : ℕ) (held : List α) (is : List (Item α)) :
    payload (delayed cap held is) = held ++ payload is := by
  induction is generalizing held with
  | nil => simp [delayed, payload]
  | cons i is ih =>
      cases i with
      | data a =>
          unfold delayed
          split
          · simp [payload_append, payload, ih]
          · simp [payload, ih]
      | signal => simp [delayed, payload, ih]

theorem count_signal_map_data [DecidableEq α] (as : List α) :
    (as.map Item.data).count .signal = 0 := by
  rw [List.count_eq_zero]
  simp

theorem count_signal_delayed [DecidableEq α] (cap : ℕ) (held : List α) (is : List (Item α)) :
    (delayed cap held is).count .signal = is.count .signal := by
  induction is generalizing held with
  | nil => exact count_signal_map_data held
  | cons i is ih =>
      cases i with
      | data a =>
          unfold delayed
          split
          · simp [List.count_append, count_signal_map_data, ih]
          · simp [ih]
      | signal => simp [delayed, ih]

/-- Data in the buffer is overtaken by every signal that follows. -/
theorem delayed_held_iff (cap : ℕ) {held : List α} (hne : held ≠ []) (is : List (Item α)) :
    delayed cap held is = held.map .data ++ is ↔ .signal ∉ is := by
  induction is generalizing held with
  | nil => simp [delayed]
  | cons i is ih =>
      cases i with
      | data a =>
          have hmem : Item.signal ∉ Item.data a :: is ↔ .signal ∉ is := by simp
          unfold delayed
          split
          · rw [hmem, ← ih (List.cons_ne_nil a []), List.append_right_inj]
            rfl
          · rw [hmem, ← ih (show held ++ [a] ≠ [] by simp), List.map_append, List.append_assoc]
            rfl
      | signal =>
          obtain ⟨a, held, rfl⟩ := List.exists_cons_of_ne_nil hne
          simp [delayed]

/-- The writer keeps the order exactly when no signal comes after data. -/
theorem delayed_eq_iff (cap : ℕ) (is : List (Item α)) :
    delayed cap [] is = is ↔ SignalsFirst is := by
  induction is with
  | nil =>
      apply iff_of_true rfl
      intro pre post h
      exact absurd h (by simp)
  | cons i is ih =>
      cases i with
      | data a =>
          rw [signalsFirst_data, ← delayed_held_iff cap (List.cons_ne_nil a [])]
          rw [show delayed cap [] (.data a :: is) = delayed cap [a] is by
            rw [delayed]
            split <;> rfl]
          exact Iff.rfl
      | signal => rw [signalsFirst_signal, ← ih, delayed, List.cons_inj_right]

/-- Rearranged pieces make up the same whole only if no piece was rearranged. -/
theorem flatten_map_eq_iff {f : List α → List α} (hf : ∀ l, (f l).length = l.length)
    (ls : List (List α)) : (ls.map f).flatten = ls.flatten ↔ ∀ l ∈ ls, f l = l := by
  induction ls with
  | nil => simp
  | cons l ls ih =>
      rw [List.map_cons, List.flatten_cons, List.flatten_cons, List.forall_mem_cons, ← ih]
      constructor
      · exact fun h => List.append_inj h (hf l)
      · rintro ⟨h₁, h₂⟩
        rw [h₁, h₂]

theorem flatten_delayed_iff (cap : ℕ) (iss : List (List (Item α))) :
    (iss.map (delayed cap [])).flatten = iss.flatten ↔ ∀ is ∈ iss, SignalsFirst is := by
  rw [flatten_map_eq_iff fun is => by simpa using length_delayed cap [] is]
  simp only [delayed_eq_iff]

end Delayed

end XinuConsole.Lib
