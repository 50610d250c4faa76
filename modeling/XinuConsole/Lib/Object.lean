import XinuConsole.Lib.Memory

/-!
Objects: memory of a fixed size with indeterminate bytes.

A load has a value only inside the object and only where a byte was stored,
and a store only inside the object. A computation on objects that has a result
therefore read what had been stored and stayed within the bounds.
-/

namespace XinuConsole.Lib

/-- `size` bytes of memory, `none` where nothing was stored. -/
abbrev Object (size : ℕ) := Fin size → Option Byte

namespace Object

variable {n : ℕ}

def load (o : Object n) (i : ℕ) : Option Byte := if h : i < n then o ⟨i, h⟩ else none

def store (o : Object n) (i : ℕ) (b : Byte) : Option (Object n) :=
  if h : i < n then some (Function.update o ⟨i, h⟩ (some b)) else none

/-- The `k` bytes from offset `off` on. -/
def loads (o : Object n) (off : ℕ) : ℕ → Option (List Byte)
  | 0 => some []
  | k + 1 => do
      let b ← o.load off
      let bs ← o.loads (off + 1) k
      some (b :: bs)

/-- The bytes stored from offset `off` on, first byte first. -/
def stores (o : Object n) (off : ℕ) : List Byte → Option (Object n)
  | [] => some o
  | b :: bs => do
      let o ← o.store off b
      o.stores (off + 1) bs

/-- An object into which a list of bytes was received. -/
def received (n : ℕ) (bs : List Byte) : Object n := fun i => bs[i.val]?

/-- An object with all its bytes stored. -/
def ofMem (n : ℕ) (m : Mem) : Object n := fun i => some (m i)

/-- The bytes of `o` from `off` to `off + k` are those of `m`. -/
def Agrees (o : Object n) (m : Mem) (off k : ℕ) : Prop :=
  ∀ i, off ≤ i → i < off + k → o.load i = some (m i)

theorem store_ofMem (m : Mem) {i : ℕ} (h : i < n) (b : Byte) :
    (ofMem n m).store i b = some (ofMem n (m.set i b)) := by
  rw [store, dif_pos h, Option.some.injEq]
  funext j
  by_cases hj : j = ⟨i, h⟩
  · subst hj
    simp [ofMem]
  · have hne : j.val ≠ i := fun heq => hj (Fin.ext heq)
    rw [Function.update_of_ne hj, ofMem, ofMem, Mem.set_of_ne _ _ hne]

theorem stores_ofMem (m : Mem) {off : ℕ} {bs : List Byte} (h : off + bs.length ≤ n) :
    (ofMem n m).stores off bs = some (ofMem n (m.write off bs)) := by
  induction bs generalizing m off with
  | nil => rfl
  | cons b bs ih =>
      rw [List.length_cons] at h
      rw [stores, store_ofMem m (by omega)]
      exact ih (m.set off b) (by omega)

theorem load_store (o : Object n) {i : ℕ} (h : i < n) (b : Byte) :
    ∃ o', o.store i b = some o' ∧ ∀ k, o'.load k = if k = i then some b else o.load k := by
  refine ⟨_, dif_pos h, fun k => ?_⟩
  by_cases hk : k = i
  · subst hk
    simp [load, h]
  · rw [if_neg hk, load, load]
    split
    · next hlt =>
      have hne : (⟨k, hlt⟩ : Fin n) ≠ ⟨i, h⟩ := fun heq => hk (congrArg Fin.val heq)
      rw [Function.update_of_ne hne]
    · rfl

theorem Agrees.stored {o : Object n} {m : Mem} {off k i : ℕ} (h : o.Agrees m off k) (hi : i < n)
    (b : Byte) : ∃ o', o.store i b = some o' ∧ o'.Agrees (m.set i b) off k := by
  obtain ⟨o', ho', hload⟩ := load_store o hi b
  refine ⟨o', ho', fun j hj hj' => ?_⟩
  rw [hload]
  by_cases hji : j = i
  · subst hji
    rw [if_pos rfl, Mem.set_self]
  · rw [if_neg hji, Mem.set_of_ne _ _ hji]
    exact h j hj hj'

theorem Agrees.mono {o : Object n} {m : Mem} {off k off' k' : ℕ} (h : o.Agrees m off k)
    (hoff : off ≤ off') (hk : off' + k' ≤ off + k) : o.Agrees m off' k' :=
  fun i hi hi' => h i (by omega) (by omega)

theorem Agrees.loads_eq {o : Object n} {m : Mem} {off k : ℕ} (h : o.Agrees m off k) :
    o.loads off k = some (m.read off k) := by
  induction k generalizing off with
  | zero => rfl
  | succ k ih =>
      rw [loads, h off le_rfl (by omega), ih (h.mono (by omega) (by omega))]
      show some (m off :: m.read (off + 1) k) = _
      rw [Nat.add_comm k 1, Mem.read_add]
      rfl

theorem agrees_received {bs : List Byte} (junk : Mem) (h : bs.length ≤ n) :
    (received n bs).Agrees (Mem.ofList bs junk) 0 bs.length := by
  intro i _ hi
  rw [Nat.zero_add] at hi
  have hn : i < n := hi.trans_le h
  rw [load, dif_pos hn, received, Mem.ofList, List.getElem?_eq_getElem hi,
    List.getD_eq_getElem _ _ hi]

/-! ### Strings in objects -/

/-- At most `k` bytes from offset `i` on, up to the first NUL. -/
def scanN (o : Object n) : ℕ → ℕ → Option (List Byte)
  | 0, _ => none
  | k + 1, i => do
      let b ← o.load i
      if b = 0 then some [] else (b :: ·) <$> o.scanN k (i + 1)

/-- The scan of a string from offset `i` on. It has a result where a NUL stops
it inside the object. -/
def scan (o : Object n) (i : ℕ) : Option (List Byte) := o.scanN (n - i) i

/-- `strncmp( s, o + i, k ) == 0`. -/
def strnequ (o : Object n) : List Byte → ℕ → ℕ → Option Bool
  | _, _, 0 => some true
  | s, i, k + 1 => do
      let b ← o.load i
      if s.headD 0 ≠ b then some false
      else if s.headD 0 = 0 then some true
      else o.strnequ s.tail (i + 1) k

/-- The `k` bytes that `strncpy` stores when it copies from offset `i`. -/
def strncpyBytes (o : Object n) : ℕ → ℕ → Option (List Byte)
  | _, 0 => some []
  | i, k + 1 => do
      let b ← o.load i
      if b = 0 then some (List.replicate (k + 1) 0) else (b :: ·) <$> o.strncpyBytes (i + 1) k

section Received

variable {bs : List Byte} (hn : bs.length ≤ n)

include hn

theorem load_received (i : ℕ) : (received n bs).load i = bs[i]? := by
  rw [load]
  split
  · rfl
  · exact (List.getElem?_eq_none (by omega)).symm

/-- A scan stops inside the received bytes exactly where they hold a NUL. -/
theorem scanN_received (k i : ℕ) (hk : bs.length - i ≤ k) :
    (received n bs).scanN k i =
      if 0 ∈ bs.drop i then some (cstr (bs.drop i)) else none := by
  induction k generalizing i with
  | zero =>
      rw [List.drop_of_length_le (by omega)]
      rfl
  | succ k ih =>
      rw [scanN, load_received hn]
      by_cases hi : i < bs.length
      · rw [List.getElem?_eq_getElem hi, List.drop_eq_getElem_cons hi, Option.bind_eq_bind,
          Option.bind_some, ih (i + 1) (by omega)]
        generalize bs[i] = b, bs.drop (i + 1) = rest
        by_cases hb : b = 0
        · simp [hb]
        · rw [if_neg hb, cstr_cons_of_ne hb]
          by_cases hmem : 0 ∈ rest
          · simp [hmem]
          · simp [hmem, Ne.symm hb]
      · rw [List.getElem?_eq_none (by omega), List.drop_of_length_le (by omega)]
        rfl

theorem scan_received (i : ℕ) :
    (received n bs).scan i = if 0 ∈ bs.drop i then some (cstr (bs.drop i)) else none :=
  scanN_received hn (n - i) i (by omega)

/-- A comparison of `k` bytes stays inside. -/
theorem strnequ_received (s : List Byte) {i k : ℕ} (hk : i + k ≤ bs.length) :
    (received n bs).strnequ s i k = some (Lib.strnequ s (bs.drop i) k) := by
  induction k generalizing s i with
  | zero => rfl
  | succ k ih =>
      have hi : i < bs.length := by omega
      rw [strnequ, load_received hn, List.getElem?_eq_getElem hi, List.drop_eq_getElem_cons hi,
        Option.bind_eq_bind, Option.bind_some, Lib.strnequ, List.headD_cons, List.tail_cons,
        ih s.tail (by omega)]
      split
      · rfl
      · split <;> rfl

/-- So does a copy of `k` bytes. -/
theorem strncpyBytes_received {i k : ℕ} (hk : i + k ≤ bs.length) :
    (received n bs).strncpyBytes i k = some (Lib.strncpyBytes (bs.drop i) k) := by
  induction k generalizing i with
  | zero => simp [strncpyBytes, Lib.strncpyBytes]
  | succ k ih =>
      have hi : i < bs.length := by omega
      rw [strncpyBytes, load_received hn, List.getElem?_eq_getElem hi,
        List.drop_eq_getElem_cons hi, Option.bind_eq_bind, Option.bind_some, ih (by omega)]
      generalize bs[i] = b, bs.drop (i + 1) = rest
      by_cases hb : b = 0
      · simp [hb, Lib.strncpyBytes]
      · simp [hb, Lib.strncpyBytes, cstr_cons_of_ne hb, List.take_succ_cons]

end Received

end Object

end XinuConsole.Lib
