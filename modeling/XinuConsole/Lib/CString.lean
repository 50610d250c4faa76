import Mathlib.Data.Nat.Digits.Lemmas
import Mathlib.Data.List.TakeWhile

/-!
Bytes, NUL-terminated strings and the library calls on them.

A pointer is the list of bytes found from it on. Reading past the end of such
a list yields NUL, so a list without a terminator reads as the string of all
its bytes. The calls follow their documented behaviour: `strncmp` stops at the
first NUL, `strncpy` pads with NUL and does not terminate, `atoi` skips white
space and takes an optional sign.
-/

namespace XinuConsole.Lib

abbrev Byte := UInt8

/-- The bytes of a string literal, without its terminator. -/
def text (s : String) : List Byte := s.toList.map fun c => UInt8.ofNat c.toNat

/-- The C string found at a pointer: the bytes in front of the first NUL. -/
def cstr (m : List Byte) : List Byte := m.takeWhile (· ≠ 0)

@[simp] theorem cstr_nil : cstr [] = [] := rfl

@[simp] theorem cstr_zero_cons (m : List Byte) : cstr (0 :: m) = [] := by
  simp [cstr]

theorem cstr_cons_of_ne {b : Byte} (hb : b ≠ 0) (m : List Byte) :
    cstr (b :: m) = b :: cstr m := by
  simp [cstr, hb]

theorem zero_not_mem_cstr (m : List Byte) : (0 : Byte) ∉ cstr m := by
  intro h
  have := List.mem_takeWhile_imp h
  simp at this

theorem cstr_append_zero {s : List Byte} (hs : (0 : Byte) ∉ s) (m : List Byte) :
    cstr (s ++ 0 :: m) = s := by
  induction s with
  | nil => simp
  | cons b s ih =>
      simp only [List.mem_cons, not_or] at hs
      rw [List.cons_append, cstr_cons_of_ne (Ne.symm hs.1), ih hs.2]

theorem cstr_append_zero_length_le (s m : List Byte) : (cstr (s ++ 0 :: m)).length ≤ s.length := by
  induction s with
  | nil => simp
  | cons b s ih =>
      by_cases hb : b = 0
      · simp [hb]
      · simpa [cstr_cons_of_ne hb] using ih

theorem cstr_of_not_mem {s : List Byte} (hs : (0 : Byte) ∉ s) : cstr s = s := by
  induction s with
  | nil => rfl
  | cons b s ih =>
      simp only [List.mem_cons, not_or] at hs
      rw [cstr_cons_of_ne (Ne.symm hs.1), ih hs.2]

@[simp] theorem cstr_cstr (m : List Byte) : cstr (cstr m) = cstr m :=
  cstr_of_not_mem (zero_not_mem_cstr m)

theorem cstr_length_le (m : List Byte) : (cstr m).length ≤ m.length :=
  (List.takeWhile_prefix _).length_le

theorem cstr_length_lt_of_mem {m : List Byte} (h : (0 : Byte) ∈ m) :
    (cstr m).length < m.length := by
  apply lt_of_le_of_ne (cstr_length_le m)
  intro heq
  have hm : cstr m = m := (List.takeWhile_prefix _).eq_of_length heq
  have hnot := zero_not_mem_cstr m
  rw [hm] at hnot
  exact hnot h

/-- A list with a NUL in it is a string, its terminator and the rest. -/
theorem eq_cstr_append_of_mem {m : List Byte} (h : (0 : Byte) ∈ m) :
    m = cstr m ++ 0 :: m.drop ((cstr m).length + 1) := by
  induction m with
  | nil => exact absurd h (by simp)
  | cons b m ih =>
      by_cases hb : b = 0
      · simp [hb]
      · have hm : (0 : Byte) ∈ m := (List.mem_cons.mp h).resolve_left (Ne.symm hb)
        rw [cstr_cons_of_ne hb, List.length_cons, List.drop_succ_cons, List.cons_append, ← ih hm]

/-- A string in an array that is longer has its terminator there. -/
theorem cstr_eq_iff_prefix {s m : List Byte} (hs : (0 : Byte) ∉ s) (hlt : s.length < m.length) :
    cstr m = s ↔ s ++ [0] <+: m := by
  constructor
  · rintro rfl
    have hmem : (0 : Byte) ∈ m := by
      by_contra hnot
      rw [cstr_of_not_mem hnot] at hlt
      exact lt_irrefl _ hlt
    refine ⟨m.drop ((cstr m).length + 1), ?_⟩
    rw [List.append_assoc]
    exact (eq_cstr_append_of_mem hmem).symm
  · rintro ⟨t, rfl⟩
    rw [List.append_assoc]
    exact cstr_append_zero hs t

theorem cstr_append_singleton_zero (m : List Byte) : cstr (m ++ [0]) = cstr m := by
  induction m with
  | nil => simp
  | cons b m ih =>
      by_cases hb : b = 0
      · simp [hb]
      · rw [List.cons_append, cstr_cons_of_ne hb, cstr_cons_of_ne hb, ih]

theorem cstr_take (m : List Byte) (n : ℕ) : cstr (m.take n) = (cstr m).take n := by
  induction m generalizing n with
  | nil => simp
  | cons b m ih =>
      cases n with
      | zero => simp
      | succ n =>
          by_cases hb : b = 0
          · simp [hb]
          · rw [List.take_succ_cons, cstr_cons_of_ne hb, cstr_cons_of_ne hb, List.take_succ_cons,
              ih]

theorem headD_eq_zero_iff (m : List Byte) : m.headD 0 = 0 ↔ cstr m = [] := by
  cases m with
  | nil => simp
  | cons b m =>
      by_cases hb : b = 0
      · simp [hb]
      · simp [cstr_cons_of_ne hb, hb]

/-- `strncmp( x, y, n ) == 0`. -/
def strnequ (x y : List Byte) : ℕ → Bool
  | 0 => true
  | n + 1 =>
      if x.headD 0 ≠ y.headD 0 then false
      else if x.headD 0 = 0 then true
      else strnequ x.tail y.tail n

/-- `strncmp` compares the first `n` characters of the two strings. -/
theorem strnequ_iff (x y : List Byte) (n : ℕ) :
    strnequ x y n = true ↔ (cstr x).take n = (cstr y).take n := by
  induction n generalizing x y with
  | zero => simp [strnequ]
  | succ n ih =>
      rcases x with _ | ⟨a, x⟩ <;> rcases y with _ | ⟨b, y⟩
      · simp [strnequ]
      · by_cases hb : b = 0
        · simp [strnequ, hb]
        · simp [strnequ, cstr_cons_of_ne hb, Ne.symm hb]
      · by_cases ha : a = 0
        · simp [strnequ, ha]
        · simp [strnequ, cstr_cons_of_ne ha, ha]
      · by_cases ha : a = 0
        · by_cases hb : b = 0
          · simp [strnequ, ha, hb]
          · simp [strnequ, ha, cstr_cons_of_ne hb, Ne.symm hb]
        · by_cases hab : a = b
          · subst hab
            simp [strnequ, ha, cstr_cons_of_ne ha, ih]
          · by_cases hb : b = 0
            · simp [strnequ, hb, cstr_cons_of_ne ha, ha]
            · simp [strnequ, hab, cstr_cons_of_ne ha, cstr_cons_of_ne hb]

theorem strnequ_comm (x y : List Byte) (n : ℕ) : strnequ x y n = strnequ y x n := by
  rw [Bool.eq_iff_iff, strnequ_iff, strnequ_iff, eq_comm]

/-- Bytes behind the first `n` do not count. -/
theorem strnequ_take (x y : List Byte) {n m : ℕ} (h : n ≤ m) :
    strnequ x (y.take m) n = strnequ x y n := by
  rw [Bool.eq_iff_iff, strnequ_iff, strnequ_iff, cstr_take, List.take_take, min_eq_left h]

/-- What `strncpy( dst, src, n )` writes: `n` bytes, the string cut or padded. -/
def strncpyBytes (src : List Byte) (n : ℕ) : List Byte :=
  (cstr src).take n ++ List.replicate (n - (cstr src).length) 0

@[simp] theorem strncpyBytes_length (src : List Byte) (n : ℕ) :
    (strncpyBytes src n).length = n := by
  simp only [strncpyBytes, List.length_append, List.length_take, List.length_replicate]
  omega

/-- A copy followed by a NUL reads back as the first `n` characters. -/
theorem cstr_strncpyBytes (src : List Byte) (n : ℕ) (m : List Byte) :
    cstr (strncpyBytes src n ++ 0 :: m) = (cstr src).take n := by
  have hs : (0 : Byte) ∉ (cstr src).take n :=
    fun h => zero_not_mem_cstr src (List.mem_of_mem_take h)
  obtain ⟨t, ht⟩ : ∃ t, List.replicate (n - (cstr src).length) (0 : Byte) ++ 0 :: m = 0 :: t := by
    cases n - (cstr src).length with
    | zero => exact ⟨m, rfl⟩
    | succ k => exact ⟨List.replicate k 0 ++ 0 :: m, by simp [List.replicate_succ]⟩
  rw [strncpyBytes, List.append_assoc, ht, cstr_append_zero hs]

theorem strncpyBytes_take (src : List Byte) {n m : ℕ} (h : n ≤ m) :
    strncpyBytes (src.take m) n = strncpyBytes src n := by
  have hlen : n - min m (cstr src).length = n - (cstr src).length := by omega
  rw [strncpyBytes, cstr_take, List.take_take, min_eq_left h, List.length_take, hlen, strncpyBytes]

/-- So does one at whose end the bytes end. -/
theorem cstr_strncpyBytes_self (src : List Byte) (n : ℕ) :
    cstr (strncpyBytes src n) = (cstr src).take n := by
  rw [← cstr_append_singleton_zero, cstr_strncpyBytes]

/-- A copy of a copy is the copy. -/
theorem strncpyBytes_strncpyBytes (src : List Byte) (n : ℕ) :
    strncpyBytes (strncpyBytes src n) n = strncpyBytes src n := by
  have hlen : n - min n (cstr src).length = n - (cstr src).length := by omega
  rw [strncpyBytes, cstr_strncpyBytes_self, List.take_take, min_self, List.length_take, hlen,
    strncpyBytes]

/-! ### Character arrays -/

/-- `char name[ n ]`: exactly `n` bytes, with or without a terminator. -/
abbrev CharArray (n : ℕ) := {bs : List Byte // bs.length = n}

namespace CharArray

variable {n : ℕ}

def zero (n : ℕ) : CharArray n := ⟨List.replicate n 0, List.length_replicate⟩

def set (a : CharArray n) (i : ℕ) (b : Byte) : CharArray n :=
  ⟨a.val.set i b, by simp [a.property]⟩

theorem room_but_one (n : ℕ) : n - 1 ≤ n := Nat.sub_le n 1

/-- `strncpy( a, src, k )` into an array that has room for `k` bytes. -/
def strncpy (a : CharArray n) (src : List Byte) (k : ℕ)
    (h : k ≤ n := by first | exact Nat.le_refl _ | exact CharArray.room_but_one _) : CharArray n :=
  ⟨strncpyBytes src k ++ a.val.drop k, by simp [a.property]; omega⟩

/-- The bytes `bs` stored at the front of the array; what does not fit is cut. -/
def store (a : CharArray n) (bs : List Byte) : CharArray n :=
  ⟨bs.take n ++ a.val.drop bs.length, by simp [a.property]; omega⟩

/-- `strcat( a, src )`. It has a result if the string and its terminator end
inside the array. -/
def strcat (a : CharArray n) (src : List Byte) : Option (CharArray n) :=
  if h : (cstr a.val).length + (cstr src).length < n then
    some ⟨cstr a.val ++ (cstr src ++ 0 :: a.val.drop ((cstr a.val).length + (cstr src).length + 1)),
      by simp [a.property]; omega⟩
  else none

theorem strcat_of_lt {a : CharArray n} {src : List Byte}
    (h : (cstr a.val).length + (cstr src).length < n) :
    ∃ a', a.strcat src = some a' ∧ cstr a'.val = cstr a.val ++ cstr src := by
  refine ⟨_, dif_pos h, ?_⟩
  have hnul : (0 : Byte) ∉ cstr a.val ++ cstr src := fun h => by
    rcases List.mem_append.mp h with h | h <;> exact zero_not_mem_cstr _ h
  dsimp only
  rw [← List.append_assoc, cstr_append_zero hnul]

theorem drop_eq_singleton (a : CharArray (n + 1)) :
    ∃ b, a.val.drop n = [b] ∧ a.val[n]? = some b := by
  have hlt : n < a.val.length := by rw [a.property]; omega
  refine ⟨a.val[n], ?_, by simp [hlt]⟩
  rw [List.drop_eq_getElem_cons hlt, List.drop_of_length_le (by rw [a.property])]

/-- The string in an array that ends with a NUL leaves room for it. -/
theorem cstr_length_le_of_end (a : CharArray (n + 1)) (ha : a.val[n]? = some 0) :
    (cstr a.val).length ≤ n := by
  obtain ⟨b, hb, hb'⟩ := drop_eq_singleton a
  obtain rfl : b = 0 := by simpa [ha] using hb'.symm
  have := cstr_append_zero_length_le (a.val.take n) []
  rw [← hb, List.take_append_drop] at this
  exact this.trans (by simp)

/-- The idiom `strncpy( a, src, n ); a[ n ] = '\0'`, on an array of `n + 1` bytes. -/
theorem cstr_set_strncpy (a : CharArray (n + 1)) (src : List Byte) (h : n ≤ n + 1) :
    cstr ((a.strncpy src n h).set n 0).val = (cstr src).take n := by
  obtain ⟨b, hb, -⟩ := drop_eq_singleton a
  have : ((a.strncpy src n h).set n 0).val = strncpyBytes src n ++ 0 :: [] := by
    simp [set, strncpy, hb]
  rw [this, cstr_strncpyBytes]

/-- The same with the terminator already in place. -/
theorem cstr_strncpy (a : CharArray (n + 1)) (ha : a.val[n]? = some 0) (src : List Byte)
    (h : n ≤ n + 1) : cstr (a.strncpy src n h).val = (cstr src).take n := by
  obtain ⟨b, hb, hb'⟩ := drop_eq_singleton a
  obtain rfl : b = 0 := by simpa [ha] using hb'.symm
  show cstr (strncpyBytes src n ++ a.val.drop n) = _
  rw [hb, cstr_strncpyBytes]

/-- A copy that may fill the whole array, cut by a terminator at its end. -/
theorem cstr_set_strncpy_full (a : CharArray (n + 1)) (src : List Byte) (h : n + 1 ≤ n + 1) :
    cstr ((a.strncpy src (n + 1) h).set n 0).val = (cstr src).take n := by
  have hdrop : a.val.drop (n + 1) = [] := List.drop_of_length_le (by rw [a.property])
  have : ((a.strncpy src (n + 1) h).set n 0).val = strncpyBytes src n ++ 0 :: [] := by
    refine List.ext_getElem (by simp [set, strncpy, hdrop]) fun i h₁ h₂ => ?_
    simp only [strncpyBytes_length, List.length_append, List.length_cons, List.length_nil] at h₂
    simp only [set, strncpy, hdrop, List.append_nil, List.getElem_set, List.getElem_append,
      strncpyBytes_length]
    by_cases hi : i = n
    · subst hi; simp
    · have hlt : i < n := by omega
      simp only [Ne.symm hi, if_false, hlt, dif_pos]
      simp only [strncpyBytes, List.getElem_append, List.length_take]
      by_cases hs : i < (cstr src).length
      · simp [hs, hlt, show i < n + 1 by omega]
      · simp [hs]
  rw [this, cstr_strncpyBytes]

end CharArray

/-! ### Numbers -/

def isSpace (b : Byte) : Bool := b = 32 || (9 ≤ b && b ≤ 13)

def isDigit (b : Byte) : Bool := 48 ≤ b && b ≤ 57

def digitsValue (ds : List Byte) : ℕ := ds.foldl (fun v d => 10 * v + (d.toNat - 48)) 0

/-- The conversion `%d` of `sscanf`: the value read and the bytes behind it. -/
def scanInt (m : List Byte) : Option (ℤ × List Byte) :=
  let m := m.dropWhile isSpace
  let neg := m.headD 0 = 45
  let m := if m.headD 0 = 45 ∨ m.headD 0 = 43 then m.tail else m
  let v := digitsValue (m.takeWhile isDigit)
  if m.takeWhile isDigit = [] then none
  else some (if neg then -(v : ℤ) else v, m.dropWhile isDigit)

def atoi (m : List Byte) : ℤ := ((scanInt m).map Prod.fst).getD 0

/-- The decimal digits of a natural number. -/
def decimal (n : ℕ) : List Byte :=
  if n = 0 then [48] else (Nat.digits 10 n).reverse.map fun d => UInt8.ofNat (48 + d)

/-- The conversion `%d` of `sprintf`. -/
def fmtD (n : ℤ) : List Byte := if n < 0 then 45 :: decimal n.natAbs else decimal n.natAbs

/-- The conversion `%02d` of `sprintf`. -/
def fmt02D (n : ℤ) : List Byte :=
  if n < 0 then 45 :: decimal n.natAbs
  else if n < 10 then 48 :: decimal n.natAbs
  else decimal n.natAbs

theorem toNat_digit {d : ℕ} (hd : d < 10) : (UInt8.ofNat (48 + d)).toNat = 48 + d := by
  rw [UInt8.toNat_ofNat']
  omega

theorem isDigit_ofNat {d : ℕ} (hd : d < 10) : isDigit (UInt8.ofNat (48 + d)) = true := by
  interval_cases d <;> decide

theorem isDigit_of_mem_decimal {n : ℕ} {b : Byte} (hb : b ∈ decimal n) : isDigit b = true := by
  by_cases h0 : n = 0
  · simp only [decimal, h0, if_true, List.mem_singleton] at hb
    subst hb; rfl
  · simp only [decimal, h0, if_false, List.mem_map, List.mem_reverse] at hb
    obtain ⟨d, hd, rfl⟩ := hb
    exact isDigit_ofNat (Nat.digits_lt_base (by norm_num) hd)

theorem decimal_ne_nil (n : ℕ) : decimal n ≠ [] := by
  by_cases h0 : n = 0
  · simp [decimal, h0]
  · simp [decimal, h0, Nat.digits_ne_nil_iff_ne_zero]

theorem not_isSpace_of_isDigit {b : Byte} (hb : isDigit b = true) : isSpace b = false := by
  simp only [isDigit, Bool.and_eq_true, decide_eq_true_eq, UInt8.le_iff_toNat_le] at hb
  simp only [isSpace, Bool.or_eq_false_iff, decide_eq_false_iff_not, Bool.and_eq_false_iff,
    ← UInt8.toNat_inj, UInt8.le_iff_toNat_le]
  change 48 ≤ b.toNat ∧ b.toNat ≤ 57 at hb
  change ¬b.toNat = 32 ∧ (¬9 ≤ b.toNat ∨ ¬b.toNat ≤ 13)
  omega

theorem digitsValue_append (ds : List Byte) (d : Byte) :
    digitsValue (ds ++ [d]) = 10 * digitsValue ds + (d.toNat - 48) := by
  simp [digitsValue]

theorem digitsValue_decimal (n : ℕ) : digitsValue (decimal n) = n := by
  by_cases h0 : n = 0
  · subst h0; rfl
  · have key : ∀ ds : List ℕ, (∀ d ∈ ds, d < 10) →
        digitsValue (ds.reverse.map fun d => UInt8.ofNat (48 + d)) = Nat.ofDigits 10 ds := by
      intro ds hds
      induction ds with
      | nil => rfl
      | cons d ds ih =>
          have hd : d < 10 := hds d (by simp)
          rw [List.reverse_cons, List.map_append, List.map_singleton, digitsValue_append,
            ih fun x hx => hds x (by simp [hx]), toNat_digit hd, Nat.ofDigits_cons]
          omega
    simp only [decimal, h0, if_false]
    rw [key _ fun d hd => Nat.digits_lt_base (by norm_num) hd, Nat.ofDigits_digits]

theorem decimal_length_le_iff {n k : ℕ} (hk : 0 < k) : (decimal n).length ≤ k ↔ n < 10 ^ k := by
  by_cases h0 : n = 0
  · simp [decimal, h0]
    omega
  · simp only [decimal, h0, if_false, List.length_map, List.length_reverse]
    exact Nat.digits_length_le_iff (by norm_num) n

theorem decimal_length_le {n k : ℕ} (hk : 0 < k) (h : n < 10 ^ k) : (decimal n).length ≤ k :=
  (decimal_length_le_iff hk).mpr h

theorem zero_not_mem_of_isDigit {ds : List Byte} (h : ∀ b ∈ ds, isDigit b = true) :
    (0 : Byte) ∉ ds := fun hm => absurd (h 0 hm) (by decide)

theorem zero_not_mem_decimal (n : ℕ) : (0 : Byte) ∉ decimal n :=
  zero_not_mem_of_isDigit fun _ => isDigit_of_mem_decimal

/-- A run of digits in front of anything else is read in full. -/
theorem scanInt_digits {ds rest : List Byte} (hne : ds ≠ [])
    (hds : ∀ b ∈ ds, isDigit b = true) (hrest : isDigit (rest.headD 0) = false) :
    scanInt (ds ++ rest) = some ((digitsValue ds : ℤ), rest) := by
  obtain ⟨d, ds', rfl⟩ := List.exists_cons_of_ne_nil hne
  have hd : isDigit d = true := hds d (by simp)
  have hsp : isSpace d = false := not_isSpace_of_isDigit hd
  have hsign : d ≠ 45 ∧ d ≠ 43 := by
    constructor <;> rintro rfl <;> simp [isDigit] at hd
  have htake : ((d :: ds') ++ rest).takeWhile isDigit = d :: ds' := by
    rw [List.takeWhile_append_of_pos hds]
    cases rest with
    | nil => simp
    | cons r rest => simp only [List.headD_cons] at hrest; simp [hrest]
  have hdrop : ((d :: ds') ++ rest).dropWhile isDigit = rest := by
    rw [List.dropWhile_append_of_pos hds]
    cases rest with
    | nil => simp
    | cons r rest => simp only [List.headD_cons] at hrest; simp [hrest]
  have hskip : ((d :: ds') ++ rest).dropWhile isSpace = (d :: ds') ++ rest := by
    simp [hsp]
  simp only [scanInt, hskip]
  simp only [List.cons_append] at htake hdrop ⊢
  simp [hsign.1, hsign.2, htake, hdrop]

theorem scanInt_decimal (n : ℕ) {rest : List Byte} (hrest : isDigit (rest.headD 0) = false) :
    scanInt (decimal n ++ rest) = some ((n : ℤ), rest) := by
  rw [scanInt_digits (decimal_ne_nil n) (fun _ => isDigit_of_mem_decimal) hrest,
    digitsValue_decimal]

theorem atoi_decimal (n : ℕ) {rest : List Byte} (hrest : isDigit (rest.headD 0) = false) :
    atoi (decimal n ++ rest) = n := by
  simp [atoi, scanInt_decimal n hrest]

theorem fmtD_natCast (n : ℕ) : fmtD n = decimal n := by
  simp [fmtD]

/-- `%02d` of a number that is not negative is a run of digits of that value. -/
theorem fmt02D_natCast (n : ℕ) :
    fmt02D n ≠ [] ∧ (∀ b ∈ fmt02D n, isDigit b = true) ∧ digitsValue (fmt02D n) = n := by
  by_cases h : n < 10
  · have he : fmt02D n = 48 :: decimal n := by
      simp [fmt02D, h]
    have hv : digitsValue (48 :: decimal n) = digitsValue (decimal n) := rfl
    refine ⟨by simp [he], ?_, by rw [he, hv, digitsValue_decimal]⟩
    intro b hb
    rw [he, List.mem_cons] at hb
    rcases hb with rfl | hb
    · rfl
    · exact isDigit_of_mem_decimal hb
  · have he : fmt02D n = decimal n := by
      simp [fmt02D, h]
    rw [he]
    exact ⟨decimal_ne_nil n, fun _ => isDigit_of_mem_decimal, digitsValue_decimal n⟩

/-- What `%02d` prints of any number, `%d` reads back. -/
theorem scanInt_fmt02D (n : ℤ) {rest : List Byte} (hrest : isDigit (rest.headD 0) = false) :
    scanInt (fmt02D n ++ rest) = some (n, rest) := by
  rcases le_or_gt 0 n with h | h
  · obtain ⟨k, rfl⟩ := Int.eq_ofNat_of_zero_le h
    obtain ⟨hne, hdigits, hvalue⟩ := fmt02D_natCast k
    rw [scanInt_digits hne hdigits hrest, hvalue]
  · have hprint : fmt02D n = 45 :: decimal n.natAbs := by rw [fmt02D, if_pos h]
    -- behind the sign the digits of the absolute value are read
    have hdigits := scanInt_decimal n.natAbs hrest
    have hspace : isSpace 45 = false := by decide
    obtain ⟨d, ds, hd⟩ := List.exists_cons_of_ne_nil (decimal_ne_nil n.natAbs)
    have hdig : isDigit d = true := isDigit_of_mem_decimal (n := n.natAbs) (by rw [hd]; simp)
    have hsign : d ≠ 45 ∧ d ≠ 43 := by
      constructor <;> rintro rfl <;> simp [isDigit] at hdig
    rw [hprint, List.cons_append]
    rw [hd] at hdigits ⊢
    simp only [scanInt, List.cons_append, List.dropWhile_cons, hspace, not_isSpace_of_isDigit hdig,
      Bool.false_eq_true, if_false, List.headD_cons, hsign.1, hsign.2, or_self, true_or, if_true,
      List.tail_cons] at hdigits ⊢
    split at hdigits
    · exact absurd hdigits (by simp)
    · next hnil =>
        rw [if_neg hnil]
        obtain ⟨hv, hr⟩ := Prod.mk.inj (Option.some.inj hdigits)
        rw [hv, hr, if_pos hdig]
        congr 2
        omega

theorem two_le_fmt02D_length (n : ℤ) : 2 ≤ (fmt02D n).length := by
  have hpos : 1 ≤ (decimal n.natAbs).length := List.length_pos_iff.mpr (decimal_ne_nil _)
  unfold fmt02D
  split
  · simpa using hpos
  · split
    · simpa using hpos
    · next h10 =>
        by_contra hlt
        have := (decimal_length_le_iff (n := n.natAbs) (k := 1) (by norm_num)).mp (by omega)
        omega

theorem fmt02D_length_le_iff {n k : ℕ} (hk : 2 ≤ k) : (fmt02D n).length ≤ k ↔ n < 10 ^ k := by
  by_cases h10 : n < 10
  · have he : fmt02D n = 48 :: decimal n := by simp [fmt02D, h10]
    have hone := decimal_length_le (n := n) (k := 1) (by norm_num) (by omega)
    have hpow : 10 ^ 1 ≤ 10 ^ k := Nat.pow_le_pow_right (by norm_num) (by omega)
    rw [he, List.length_cons]
    constructor <;> intro <;> omega
  · have he : fmt02D n = decimal n := by simp [fmt02D, h10]
    rw [he]
    exact decimal_length_le_iff (by omega)

theorem fmt02D_length_le {n k : ℕ} (hk : 2 ≤ k) (h : n < 10 ^ k) : (fmt02D n).length ≤ k :=
  (fmt02D_length_le_iff hk).mpr h

/-- Below zero the sign takes one character of its own. -/
theorem fmt02D_neg_length_le_iff {n k : ℕ} (hk : 0 < k) :
    (fmt02D (-n)).length ≤ k + 1 ↔ n < 10 ^ k := by
  rcases Nat.eq_zero_or_pos n with rfl | hn
  · have hpow : 0 < 10 ^ k := by positivity
    have hzero : (fmt02D (-((0 : ℕ) : ℤ))).length = 2 := rfl
    rw [hzero]
    constructor <;> intro <;> omega
  · have he : fmt02D (-n) = 45 :: decimal n := by simp [fmt02D, hn]
    rw [he, List.length_cons, Nat.succ_le_succ_iff]
    exact decimal_length_le_iff hk

/-- A sign or a leading zero is one character more. -/
theorem fmt02D_length_le_succ {n : ℤ} {k : ℕ} (hk : 0 < k) (h : n.natAbs < 10 ^ k) :
    (fmt02D n).length ≤ k + 1 := by
  have := decimal_length_le hk h
  unfold fmt02D
  split
  · simpa using this
  · split
    · simpa using this
    · omega

end XinuConsole.Lib
