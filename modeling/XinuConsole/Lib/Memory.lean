import Mathlib.Data.List.GetD
import Mathlib.Logic.Function.Basic
import XinuConsole.Lib.CString

/-!
Byte memory seen from a base pointer. A buffer is a function from offsets to
bytes, so a store past the end of the C object is visible as a store, and a
statement about bounds is a statement about which offsets changed.
-/

namespace XinuConsole.Lib

abbrev Mem := ℕ → Byte

namespace Mem

def set (m : Mem) (i : ℕ) (b : Byte) : Mem := Function.update m i b

/-- The bytes `bs` stored from offset `off` on, first byte first. -/
def write (m : Mem) : ℕ → List Byte → Mem
  | _, [] => m
  | off, b :: bs => write (m.set off b) (off + 1) bs

/-- The `n` bytes found from offset `off` on. -/
def read (m : Mem) (off n : ℕ) : List Byte := (List.range n).map fun k => m (off + k)

/-- The memory behind a pointer moved on by `off`. -/
def shift (m : Mem) (off : ℕ) : Mem := fun k => m (off + k)

/-- Memory holding the bytes of a list and `junk` behind them. -/
def ofList (bs : List Byte) (junk : Mem) : Mem := fun k => bs.getD k (junk k)

@[simp] theorem set_self (m : Mem) (i : ℕ) (b : Byte) : m.set i b i = b := by
  simp [set]

theorem set_of_ne (m : Mem) {i k : ℕ} (b : Byte) (h : k ≠ i) : m.set i b k = m k := by
  simp [set, h]

/-- A store leaves the bytes in front of it alone. -/
theorem write_of_lt (m : Mem) {off k : ℕ} (bs : List Byte) (h : k < off) :
    m.write off bs k = m k := by
  induction bs generalizing m off with
  | nil => rfl
  | cons b bs ih =>
      rw [write, ih _ (by omega), set_of_ne _ _ (by omega)]

theorem write_getElem (m : Mem) (off : ℕ) (bs : List Byte) {k : ℕ} (h : k < bs.length) :
    m.write off bs (off + k) = bs[k] := by
  induction bs generalizing m off k with
  | nil => simp at h
  | cons b bs ih =>
      cases k with
      | zero => rw [write, write_of_lt _ _ (by omega)]; simp
      | succ k =>
          simp only [List.length_cons] at h
          have := ih (m.set off b) (off + 1) (k := k) (by omega)
          rw [write, show off + (k + 1) = off + 1 + k by omega, this]
          simp

/-- A store leaves the bytes behind it alone. -/
theorem write_of_ge (m : Mem) {off k : ℕ} (bs : List Byte) (h : off + bs.length ≤ k) :
    m.write off bs k = m k := by
  induction bs generalizing m off with
  | nil => rfl
  | cons b bs ih =>
      rw [List.length_cons] at h
      rw [write, ih _ (by omega), set_of_ne _ _ (by omega)]

theorem write_append (m : Mem) (off : ℕ) (as bs : List Byte) :
    m.write off (as ++ bs) = (m.write off as).write (off + as.length) bs := by
  induction as generalizing m off with
  | nil => rfl
  | cons a as ih =>
      rw [List.cons_append, write, ih, write, List.length_cons]
      congr 1
      omega

@[simp] theorem read_length (m : Mem) (off n : ℕ) : (m.read off n).length = n := by
  simp [read]

theorem read_getElem (m : Mem) (off n : ℕ) {k : ℕ} (h : k < (m.read off n).length) :
    (m.read off n)[k] = m (off + k) := by
  simp [read]

theorem read_congr {m m' : Mem} {off n : ℕ} (h : ∀ k, off ≤ k → k < off + n → m k = m' k) :
    m.read off n = m'.read off n := by
  refine List.ext_getElem (by simp) fun i h₁ _ => ?_
  rw [read_length] at h₁
  rw [read_getElem, read_getElem, h _ (by omega) (by omega)]

theorem read_add (m : Mem) (off a b : ℕ) :
    m.read off (a + b) = m.read off a ++ m.read (off + a) b := by
  simp [read, List.range_add, Nat.add_assoc]

theorem read_write_same (m : Mem) (off : ℕ) (bs : List Byte) :
    (m.write off bs).read off bs.length = bs := by
  refine List.ext_getElem (by simp) fun i h₁ h₂ => ?_
  rw [read_getElem, write_getElem _ _ _ h₂]

theorem read_set_disjoint (m : Mem) {i : ℕ} (b : Byte) {o n : ℕ} (h : o + n ≤ i ∨ i < o) :
    (m.set i b).read o n = m.read o n :=
  read_congr fun k hk hk' => set_of_ne _ _ (by omega)

theorem read_set (m : Mem) (b : Byte) (o n k : ℕ) :
    (m.set (o + k) b).read o n = (m.read o n).set k b := by
  refine List.ext_getElem (by simp) fun i h₁ _ => ?_
  rw [read_getElem, List.getElem_set]
  split
  · next hi => rw [hi, set_self]
  · next hi => rw [set_of_ne _ _ (by omega), read_getElem]

theorem read_ofList (bs : List Byte) (junk : Mem) {o n : ℕ} (h : o + n ≤ bs.length) :
    (ofList bs junk).read o n = (bs.drop o).take n := by
  refine List.ext_getElem (by simp; omega) fun i h₁ _ => ?_
  rw [read_length] at h₁
  rw [read_getElem, ofList, List.getD_eq_getElem _ _ (by omega)]
  simp

/-! ### Contents -/

/-- The bytes `bs` lie at offset `off`. -/
def Has (m : Mem) (off : ℕ) (bs : List Byte) : Prop := m.read off bs.length = bs

theorem has_append {m : Mem} {off : ℕ} {as bs : List Byte} :
    m.Has off (as ++ bs) ↔ m.Has off as ∧ m.Has (off + as.length) bs := by
  unfold Has
  rw [List.length_append, read_add]
  constructor
  · intro h
    exact List.append_inj h (by simp)
  · rintro ⟨h₁, h₂⟩
    rw [h₁, h₂]

theorem has_singleton {m : Mem} {off : ℕ} {b : Byte} : m.Has off [b] ↔ m off = b := by
  simp [Has, read]

theorem has_cons {m : Mem} {off : ℕ} {b : Byte} {bs : List Byte} :
    m.Has off (b :: bs) ↔ m off = b ∧ m.Has (off + 1) bs := by
  rw [← List.singleton_append, has_append, has_singleton, List.length_singleton]

theorem has_write (m : Mem) (off : ℕ) (bs : List Byte) : (m.write off bs).Has off bs :=
  read_write_same m off bs

theorem Has.congr {m m' : Mem} {off : ℕ} {bs : List Byte} (h : m.Has off bs)
    (hm : ∀ k, off ≤ k → k < off + bs.length → m' k = m k) : m'.Has off bs := by
  rw [Has, read_congr hm]
  exact h

theorem has_ofList (bs : List Byte) (junk : Mem) : (ofList bs junk).Has 0 bs := by
  rw [Has, read_ofList _ _ (by simp)]
  simp

/-- The string at `off` when its bytes and a terminator lie there. -/
theorem cstr_read {m : Mem} {off n : ℕ} {s : List Byte} (h : m.Has off (s ++ [0]))
    (hs : (0 : Byte) ∉ s) (hn : s.length < n) : cstr (m.read off n) = s := by
  obtain ⟨k, rfl⟩ : ∃ k, n = (s ++ [0]).length + k := ⟨n - (s.length + 1), by simp; omega⟩
  rw [read_add, h, List.append_assoc]
  exact cstr_append_zero hs _

end Mem

end XinuConsole.Lib
