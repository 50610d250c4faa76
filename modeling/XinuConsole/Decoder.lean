import XinuConsole.ConnectUtils

/-!
What the decoder of the status reply does, on every datagram and on those that
carry well-formed records.

`Encodes` fixes the record format of the wire, `Holds` what it means that a
record lies in memory. `recvRecords_encoded` connects the two, and
`recvRecords_frame` says that whatever arrives, the loop stores into the
records it counts and nowhere else.
-/

namespace XinuConsole.ConnectUtils

open Lib

/-- A NUL-terminated string lies at offset `off`. -/
def HoldsStr (m : Mem) (off : ℕ) (s : List Byte) : Prop := m.Has off (s ++ [0])

/-- The record `r` lies in the `struct statusreplyData` at offset `base`. -/
structure Holds (m : Mem) (base : ℕ) (r : StatusreplyData) : Prop where
  conname : HoldsStr m (base + offConname) r.conname
  conclass : HoldsStr m (base + offConclass) r.conclass
  active : m (base + offActive) = r.active
  user : HoldsStr m (base + offUser) r.user
  contime : HoldsStr m (base + offContime) r.contime

/-- Strings fit their members, the flag is 0 or 1, and a free row has no user
and no time. -/
structure WellFormed (r : StatusreplyData) : Prop where
  conname : (0 : Byte) ∉ r.conname ∧ r.conname.length < maxConnectionName
  conclass : (0 : Byte) ∉ r.conclass ∧ r.conclass.length < maxClassName
  user : (0 : Byte) ∉ r.user ∧ r.user.length < maxUserName
  contime : (0 : Byte) ∉ r.contime ∧ r.contime.length < maxTimeLength
  active : (r.active = 0 ∧ r.user = [] ∧ r.contime = []) ∨ r.active = 1

/-- A record as it travels: two strings and the flag, and for a held row two
more strings. -/
def encodeRecord (r : StatusreplyData) : List Byte :=
  r.conname ++ [0] ++ (r.conclass ++ [0]) ++
    if r.active = 0 then [0] else 1 :: (r.user ++ [0] ++ (r.contime ++ [0]))

theorem HoldsStr.congr {m m' : Mem} {off : ℕ} {s : List Byte} (h : HoldsStr m off s)
    (hm : ∀ k, off ≤ k → k < off + (s.length + 1) → m' k = m k) : HoldsStr m' off s :=
  Mem.Has.congr h (by simpa using hm)

theorem holdsStr_write (m : Mem) (off : ℕ) (s : List Byte) :
    HoldsStr (m.write off (s ++ [0])) off s := Mem.has_write m off _

theorem holdsStr_nil {m : Mem} {off : ℕ} (h : m off = 0) : HoldsStr m off [] :=
  Mem.has_singleton.mpr h

/-- Memory that agrees on the record's bytes holds the same record. -/
theorem Holds.congr {m m' : Mem} {base : ℕ} {r : StatusreplyData} (h : Holds m base r)
    (hr : WellFormed r)
    (hm : ∀ k, base ≤ k → k < base + sizeofStatusreplyData → m' k = m k) : Holds m' base r := by
  have h₁ := hr.conname.2
  have h₂ := hr.conclass.2
  have h₃ := hr.user.2
  have h₄ := hr.contime.2
  simp only [sizeofStatusreplyData, maxConnectionName, maxClassName, maxUserName,
    maxTimeLength] at hm h₁ h₂ h₃ h₄
  refine ⟨h.conname.congr ?_, h.conclass.congr ?_, ?_, h.user.congr ?_, h.contime.congr ?_⟩
  case refine_3 => rw [← h.active]; exact hm _ (by simp) (by simp)
  all_goals
    intro k hk hk'
    simp only [offConname, offConclass, offActive, offUser, offContime, maxConnectionName,
      maxClassName, maxUserName] at hk hk'
    exact hm k (by omega) (by omega)

/-! ### The string copy -/

/-- A string that fits is copied with its terminator. -/
theorem sget_str (src : Mem) {s : List Byte} (hs : (0 : Byte) ∉ s) (dst max : ℕ) (c : Cursor)
    (hmax : s.length < max) (hsrc : HoldsStr src c.ptr s) (hd : s.length + 1 ≤ c.dlen) :
    sget src dst max c =
      (true, ⟨c.ptr + (s.length + 1), c.dlen - (s.length + 1),
        c.details.write dst (s ++ [0])⟩) := by
  induction s generalizing dst max c with
  | nil =>
      obtain ⟨max, rfl⟩ : ∃ k, max = k + 1 := ⟨max - 1, by simp at hmax; omega⟩
      have h0 : src c.ptr = 0 := Mem.has_singleton.mp hsrc
      simp only [List.length_nil, Nat.zero_add] at hd
      simp [sget, h0, show 0 < c.dlen by omega, Mem.write]
  | cons b s ih =>
      obtain ⟨max, rfl⟩ : ∃ k, max = k + 1 := ⟨max - 1, by simp at hmax; omega⟩
      simp only [List.mem_cons, not_or] at hs
      simp only [List.length_cons] at hmax hd
      obtain ⟨hb, htail⟩ := Mem.has_cons.mp hsrc
      have := ih hs.2 (dst + 1) max ⟨c.ptr + 1, c.dlen - 1, c.details.set dst b⟩
        (by omega) htail (by simp; omega)
      rw [sget, if_pos (by omega)]
      simp only [hb, Ne.symm hs.1, if_false, this, List.length_cons, List.cons_append, Mem.write,
        Prod.mk.injEq, true_and, Cursor.mk.injEq, and_true]
      omega

/-- Whatever arrives, `sget` stores into the `max` bytes it was given. -/
theorem sget_frame (src : Mem) (dst max : ℕ) (c : Cursor) {k : ℕ} (hk : k < dst ∨ dst + max ≤ k) :
    (sget src dst max c).2.details k = c.details k := by
  induction max generalizing dst c with
  | zero => rfl
  | succ max ih =>
      have hne : k ≠ dst := by omega
      unfold sget
      split
      · dsimp only
        split
        · exact Mem.set_of_ne _ _ hne
        · rw [ih _ _ (by omega)]
          exact Mem.set_of_ne _ _ hne
      · rfl

/-! ### One record -/

theorem recvRecord_frame (src : Mem) (base : ℕ) (c : Cursor) {k : ℕ}
    (hk : k < base ∨ base + sizeofStatusreplyData ≤ k) :
    (recvRecord src base c).2.details k = c.details k := by
  simp only [sizeofStatusreplyData, maxConnectionName, maxClassName, maxUserName,
    maxTimeLength] at hk
  have hf (off max : ℕ) (hoff : off + max ≤ 61) (c : Cursor) :
      (sget src (base + off) max c).2.details k = c.details k :=
    sget_frame src _ _ c (by omega)
  have hs (off : ℕ) (hoff : off < 61) (b : Byte) (m : Mem) : m.set (base + off) b k = m k :=
    Mem.set_of_ne _ _ (by omega)
  unfold recvRecord
  have h₁ := hf offConname maxConnectionName (by decide) c
  rcases hc₁ : sget src (base + offConname) maxConnectionName c with ⟨_ | _, c₁⟩ <;>
    rw [hc₁] at h₁ <;> dsimp only
  · exact h₁
  have h₂ := (hf offConclass maxClassName (by decide) c₁).trans h₁
  rcases hc₂ : sget src (base + offConclass) maxClassName c₁ with ⟨_ | _, c₂⟩ <;>
    rw [hc₂] at h₂ <;> dsimp only
  · exact h₂
  split
  · exact h₂
  split
  · dsimp only
    rw [hs _ (by decide), hs _ (by decide), hs _ (by decide)]
    exact h₂
  have h₃ := hf offUser maxUserName (by decide)
    ⟨c₂.ptr + 1, c₂.dlen - 1, c₂.details.set (base + offActive) 1⟩
  dsimp only at h₃
  rw [hs _ (by decide)] at h₃
  rcases hc₃ : sget src (base + offUser) maxUserName
      ⟨c₂.ptr + 1, c₂.dlen - 1, c₂.details.set (base + offActive) 1⟩ with ⟨_ | _, c₃⟩ <;>
    rw [hc₃] at h₃ <;> dsimp only
  · exact h₃.trans h₂
  · exact (hf offContime maxTimeLength (by decide) c₃).trans (h₃.trans h₂)

/-- The stores made for a free row leave the row in memory. -/
theorem holds_free (m : Mem) (base : ℕ) {r : StatusreplyData} (hr : WellFormed r)
    (h0 : r.active = 0) (hu : r.user = []) (ht : r.contime = []) :
    Holds (((((m.write (base + offConname) (r.conname ++ [0])).write (base + offConclass)
      (r.conclass ++ [0])).set (base + offActive) 0).set (base + offUser) 0).set
        (base + offContime) 0) base r := by
  have hn := hr.conname.2
  have hc := hr.conclass.2
  simp only [offConname, offConclass, offActive, offUser, offContime, maxConnectionName,
    maxClassName, maxUserName] at hn hc ⊢
  refine ⟨?_, ?_, ?_, ?_, ?_⟩ <;>
    simp only [offConname, offConclass, offActive, offUser, offContime, maxConnectionName,
      maxClassName, maxUserName]
  · apply (holdsStr_write m (base + 0) r.conname).congr
    intro k hk hk'
    rw [Mem.set_of_ne _ _ (by omega), Mem.set_of_ne _ _ (by omega),
      Mem.set_of_ne _ _ (by omega), Mem.write_of_lt _ _ (by omega)]
  · refine (holdsStr_write (m.write (base + 0) (r.conname ++ [0])) (base + 16)
      r.conclass).congr fun k hk hk' => ?_
    rw [Mem.set_of_ne _ _ (by omega), Mem.set_of_ne _ _ (by omega),
      Mem.set_of_ne _ _ (by omega)]
  · rw [Mem.set_of_ne _ _ (by omega), Mem.set_of_ne _ _ (by omega), Mem.set_self, h0]
  · rw [hu]
    apply holdsStr_nil
    rw [Mem.set_of_ne _ _ (by omega), Mem.set_self]
  · rw [ht]
    exact holdsStr_nil (Mem.set_self _ _ _)

/-- The stores made for a held row leave the row in memory. -/
theorem holds_held (m : Mem) (base : ℕ) {r : StatusreplyData} (hr : WellFormed r)
    (h1 : r.active = 1) :
    Holds (((((m.write (base + offConname) (r.conname ++ [0])).write (base + offConclass)
      (r.conclass ++ [0])).set (base + offActive) 1).write (base + offUser)
        (r.user ++ [0])).write (base + offContime) (r.contime ++ [0])) base r := by
  have hn := hr.conname.2
  have hc := hr.conclass.2
  have hu := hr.user.2
  simp only [offConname, offConclass, offActive, offUser, offContime, maxConnectionName,
    maxClassName, maxUserName] at hn hc hu ⊢
  refine ⟨?_, ?_, ?_, ?_, ?_⟩ <;>
    simp only [offConname, offConclass, offActive, offUser, offContime, maxConnectionName,
      maxClassName, maxUserName]
  · apply (holdsStr_write m (base + 0) r.conname).congr
    intro k hk hk'
    rw [Mem.write_of_lt _ _ (by omega), Mem.write_of_lt _ _ (by omega),
      Mem.set_of_ne _ _ (by omega), Mem.write_of_lt _ _ (by omega)]
  · refine (holdsStr_write (m.write (base + 0) (r.conname ++ [0])) (base + 16)
      r.conclass).congr fun k hk hk' => ?_
    rw [Mem.write_of_lt _ _ (by omega), Mem.write_of_lt _ _ (by omega),
      Mem.set_of_ne _ _ (by omega)]
  · rw [Mem.write_of_lt _ _ (by omega), Mem.write_of_lt _ _ (by omega), Mem.set_self, h1]
  · refine (holdsStr_write (((m.write (base + 0) (r.conname ++ [0])).write (base + 16)
      (r.conclass ++ [0])).set (base + (16 + 16)) 1) (base + (16 + 16 + 1)) r.user).congr
        fun k hk hk' => ?_
    rw [Mem.write_of_lt _ _ (by omega)]
  · exact holdsStr_write _ _ _

/-- A well-formed record behind the pointer is expanded into the caller's
record, and the pointer ends up behind it. -/
theorem recvRecord_encoded (src : Mem) (base : ℕ) (c : Cursor) {r : StatusreplyData}
    (hr : WellFormed r) (hsrc : src.Has c.ptr (encodeRecord r))
    (hd : (encodeRecord r).length ≤ c.dlen) :
    ∃ m, recvRecord src base c =
        (true, ⟨c.ptr + (encodeRecord r).length, c.dlen - (encodeRecord r).length, m⟩) ∧
      Holds m base r := by
  unfold encodeRecord at hsrc hd ⊢
  obtain ⟨hsrc, htail⟩ := Mem.has_append.mp hsrc
  obtain ⟨hs₁, hs₂⟩ := Mem.has_append.mp hsrc
  simp only [List.length_append, List.length_singleton] at hs₂ htail hd ⊢
  have e₁ := sget_str src hr.conname.1 (base + offConname) maxConnectionName c hr.conname.2 hs₁
    (by omega)
  have e₂ := sget_str src hr.conclass.1 (base + offConclass) maxClassName
    ⟨c.ptr + (r.conname.length + 1), c.dlen - (r.conname.length + 1),
      c.details.write (base + offConname) (r.conname ++ [0])⟩ hr.conclass.2 hs₂
    (by dsimp only; omega)
  rw [recvRecord, e₁]
  dsimp only
  rw [e₂]
  dsimp only
  have hp : c.ptr + (r.conname.length + 1) + (r.conclass.length + 1) =
      c.ptr + (r.conname.length + 1 + (r.conclass.length + 1)) := by omega
  rw [hp]
  rcases hr.active with ⟨h0, hu0, ht0⟩ | h1
  · simp only [h0, if_true, List.length_singleton] at htail hd ⊢
    rw [if_neg (by omega), if_pos (Mem.has_singleton.mp htail)]
    refine ⟨_, ?_, holds_free c.details base hr h0 hu0 ht0⟩
    simp only [Prod.mk.injEq, Cursor.mk.injEq, true_and, and_true]
    omega
  · simp only [h1, show (1 : Byte) ≠ 0 by decide, if_false, List.length_cons, List.length_append,
      List.length_nil] at htail hd ⊢
    obtain ⟨ha, htail⟩ := Mem.has_cons.mp htail
    obtain ⟨hs₃, hs₄⟩ := Mem.has_append.mp htail
    rw [List.length_append, List.length_singleton] at hs₄
    have e₃ := fun dlen m h => sget_str src hr.user.1 (base + offUser) maxUserName
      ⟨_, dlen, m⟩ hr.user.2 hs₃ h
    have e₄ := fun dlen m h => sget_str src hr.contime.1 (base + offContime) maxTimeLength
      ⟨_, dlen, m⟩ hr.contime.2 hs₄ h
    rw [if_neg (by omega), if_neg (by rw [ha]; decide), e₃ _ _ (by dsimp only; omega)]
    dsimp only
    rw [e₄ _ _ (by dsimp only; omega)]
    refine ⟨_, ?_, holds_held c.details base hr h1⟩
    simp only [Prod.mk.injEq, Cursor.mk.injEq, true_and, and_true]
    omega

/-! ### The loop over the records -/

theorem recvRecords_frame (src : Mem) (n i : ℕ) (c : Cursor) {k : ℕ}
    (hk : k < sizeofStatusreplyData * i ∨ sizeofStatusreplyData * (i + n) ≤ k) :
    (recvRecords src n i c).2.2.details k = c.details k := by
  induction n generalizing i c with
  | zero => rfl
  | succ n ih =>
      have h₁ : (recvRecord src (sizeofStatusreplyData * i) c).2.details k = c.details k :=
        recvRecord_frame src _ c (by rw [sizeofStatusreplyData_eq] at hk ⊢; omega)
      unfold recvRecords
      rcases hc : recvRecord src (sizeofStatusreplyData * i) c with ⟨_ | _, c₁⟩ <;>
        rw [hc] at h₁ <;> dsimp only
      · exact h₁
      · rw [ih (i + 1) c₁ (by rw [sizeofStatusreplyData_eq] at hk ⊢; omega)]
        exact h₁

/-- Records on the wire, as many as the loop counts, end up in the caller's
records of the same index. -/
theorem recvRecords_encoded (src : Mem) (rs : List StatusreplyData) (i : ℕ) (c : Cursor)
    (hr : ∀ r ∈ rs, WellFormed r) (hsrc : src.Has c.ptr (rs.flatMap encodeRecord))
    (hd : (rs.flatMap encodeRecord).length ≤ c.dlen) :
    ∃ c', recvRecords src rs.length i c = (true, i + rs.length, c') ∧
      ∀ j (h : j < rs.length), Holds c'.details (sizeofStatusreplyData * (i + j)) rs[j] := by
  induction rs generalizing i c with
  | nil => exact ⟨c, rfl, fun j h => absurd h (by simp)⟩
  | cons r rs ih =>
      rw [List.flatMap_cons] at hsrc hd
      rw [List.length_append] at hd
      obtain ⟨hs₁, hs₂⟩ := Mem.has_append.mp hsrc
      obtain ⟨m, hm, hhold⟩ := recvRecord_encoded src (sizeofStatusreplyData * i) c
        (hr r (by simp)) hs₁ (by omega)
      obtain ⟨c', hc', hrest⟩ := ih (i + 1)
        ⟨c.ptr + (encodeRecord r).length, c.dlen - (encodeRecord r).length, m⟩
        (fun x hx => hr x (by simp [hx])) hs₂ (by dsimp only; omega)
      refine ⟨c', ?_, fun j hj => ?_⟩
      · rw [List.length_cons, recvRecords, hm]
        dsimp only
        rw [hc', Nat.add_assoc, Nat.add_comm 1]
      · cases j with
        | zero =>
            refine hhold.congr (hr r (by simp)) fun k _ hk => ?_
            -- the later rounds store behind this record only
            have := recvRecords_frame src rs.length (i + 1)
              ⟨c.ptr + (encodeRecord r).length, c.dlen - (encodeRecord r).length, m⟩ (k := k)
              (by rw [sizeofStatusreplyData_eq] at hk ⊢; omega)
            rw [hc'] at this
            exact this
        | succ j =>
            have := hrest j (by simpa using hj)
            rw [show i + 1 + j = i + (j + 1) by omega] at this
            exact this

/-! ### What success says -/

theorem sget_fits (src : Mem) {s : List Byte} (hs : (0 : Byte) ∉ s) (dst max : ℕ) (c : Cursor)
    (hsrc : HoldsStr src c.ptr s) (h : (sget src dst max c).1 = true) :
    s.length < max ∧ s.length + 1 ≤ c.dlen := by
  induction s generalizing dst max c with
  | nil =>
      cases max with
      | zero => exact absurd h (by simp [sget])
      | succ max =>
          unfold sget at h
          split at h
          · next hd => exact ⟨Nat.succ_pos max, hd⟩
          · exact absurd h (by simp)
  | cons b s ih =>
      simp only [List.mem_cons, not_or] at hs
      obtain ⟨hb, htail⟩ := Mem.has_cons.mp hsrc
      cases max with
      | zero => exact absurd h (by simp [sget])
      | succ max =>
          unfold sget at h
          split at h
          · next hd =>
              simp only [hb, Ne.symm hs.1, if_false] at h
              have hrec := ih hs.2 (dst + 1) max
                ⟨c.ptr + 1, c.dlen - 1, c.details.set dst b⟩ htail h
              dsimp only at hrec
              simp only [List.length_cons]
              omega
          · exact absurd h (by simp)

/-- A copy succeeds only on a string that fits and has arrived as a whole. -/
theorem sget_true {src : Mem} {s : List Byte} (hs : (0 : Byte) ∉ s) {dst max : ℕ} {c c' : Cursor}
    (h : sget src dst max c = (true, c')) (hsrc : HoldsStr src c.ptr s) :
    s.length < max ∧ s.length + 1 ≤ c.dlen ∧
      c' = ⟨c.ptr + (s.length + 1), c.dlen - (s.length + 1), c.details.write dst (s ++ [0])⟩ := by
  obtain ⟨hmax, hd⟩ := sget_fits src hs dst max c hsrc (by rw [h])
  rw [sget_str src hs dst max c hmax hsrc hd] at h
  exact ⟨hmax, hd, (Prod.mk.inj h).2.symm⟩

/-- A record with strings of any length. -/
structure Printed (r : StatusreplyData) : Prop where
  conname : (0 : Byte) ∉ r.conname
  conclass : (0 : Byte) ∉ r.conclass
  user : (0 : Byte) ∉ r.user
  contime : (0 : Byte) ∉ r.contime
  active : (r.active = 0 ∧ r.user = [] ∧ r.contime = []) ∨ r.active = 1

/-- A record is accepted only if it is well formed. -/
theorem recvRecord_true {src : Mem} {base : ℕ} {c c' : Cursor} {r : StatusreplyData}
    (hr : Printed r) (hsrc : src.Has c.ptr (encodeRecord r))
    (h : recvRecord src base c = (true, c')) :
    WellFormed r ∧ (encodeRecord r).length ≤ c.dlen := by
  unfold encodeRecord at hsrc ⊢
  obtain ⟨hsrc, htail⟩ := Mem.has_append.mp hsrc
  obtain ⟨hs₁, hs₂⟩ := Mem.has_append.mp hsrc
  simp only [List.length_append, List.length_singleton] at hs₂ htail ⊢
  unfold recvRecord at h
  split at h
  · exact absurd h (by simp)
  next c₁ e₁ =>
  obtain ⟨hmax₁, hd₁, rfl⟩ := sget_true hr.conname e₁ hs₁
  split at h
  · exact absurd h (by simp)
  next c₂ e₂ =>
  obtain ⟨hmax₂, hd₂, rfl⟩ := sget_true hr.conclass e₂ hs₂
  have hp : c.ptr + (r.conname.length + 1) + (r.conclass.length + 1) =
      c.ptr + (r.conname.length + 1 + (r.conclass.length + 1)) := by omega
  dsimp only at h hd₂
  rw [hp] at h
  split at h
  · exact absurd h (by simp)
  next hd₀ =>
  rcases hr.active with ⟨h0, hu0, ht0⟩ | h1
  · refine ⟨⟨⟨hr.conname, hmax₁⟩, ⟨hr.conclass, hmax₂⟩, by simp [hu0], by simp [ht0], hr.active⟩,
      ?_⟩
    simp only [h0, if_true, List.length_singleton]
    omega
  · simp only [h1, show (1 : Byte) ≠ 0 by decide, if_false, List.length_cons, List.length_append,
      List.length_nil] at htail ⊢
    obtain ⟨ha, htail⟩ := Mem.has_cons.mp htail
    obtain ⟨hs₃, hs₄⟩ := Mem.has_append.mp htail
    rw [List.length_append, List.length_singleton] at hs₄
    rw [if_neg (by rw [ha]; decide)] at h
    split at h
    · exact absurd h (by simp)
    next c₃ e₃ =>
    obtain ⟨hmax₃, hd₃, rfl⟩ := sget_true hr.user e₃ hs₃
    obtain ⟨hmax₄, hd₄, -⟩ := sget_true hr.contime h hs₄
    refine ⟨⟨⟨hr.conname, hmax₁⟩, ⟨hr.conclass, hmax₂⟩, ⟨hr.user, hmax₃⟩, ⟨hr.contime, hmax₄⟩,
      hr.active⟩, ?_⟩
    dsimp only at hd₃ hd₄
    omega

/-- The loop is left with success only if every record it went through is well formed. -/
theorem recvRecords_true {src : Mem} {rs : List StatusreplyData} {i : ℕ} {c : Cursor}
    (hr : ∀ r ∈ rs, Printed r) (hsrc : src.Has c.ptr (rs.flatMap encodeRecord))
    (h : (recvRecords src rs.length i c).1 = true) :
    (∀ r ∈ rs, WellFormed r) ∧ (rs.flatMap encodeRecord).length ≤ c.dlen := by
  induction rs generalizing i c with
  | nil => simp
  | cons r rs ih =>
      rw [List.flatMap_cons] at hsrc
      obtain ⟨hs₁, hs₂⟩ := Mem.has_append.mp hsrc
      rw [List.length_cons, recvRecords] at h
      rcases hc : recvRecord src (sizeofStatusreplyData * i) c with ⟨_ | _, c₁⟩ <;> rw [hc] at h
      · exact absurd h (by simp)
      obtain ⟨hwf, hd⟩ := recvRecord_true (hr r (by simp)) hs₁ hc
      obtain ⟨m, hm, -⟩ := recvRecord_encoded src (sizeofStatusreplyData * i) c hwf hs₁ hd
      obtain rfl := (Prod.mk.inj (hm.symm.trans hc)).2
      obtain ⟨hrest, hd'⟩ := ih (fun x hx => hr x (by simp [hx])) hs₂ h
      dsimp only at hd'
      rw [List.flatMap_cons, List.length_append]
      refine ⟨fun x hx => ?_, by omega⟩
      rcases List.mem_cons.mp hx with rfl | hx
      · exact hwf
      · exact hrest x hx

/-! ### The whole datagram -/

theorem replyOfBytes_header (reply : Reply) (ds : List Byte) (junk : Mem) :
    replyOfBytes (reply.header ++ ds) junk =
      { reply with details := Mem.ofList ds (junk.shift 70) } := by
  have hh := reply.hostname.property
  have hn := reply.numconnections.property
  have hlen : (reply.header ++ ds).length = 70 + ds.length := by simp
  ext1
  · rfl
  · rfl
  · apply Subtype.ext
    change (Mem.ofList _ _).read 2 64 = _
    rw [Mem.read_ofList _ _ (by omega)]
    simp [Reply.header, hh]
  · apply Subtype.ext
    change (Mem.ofList _ _).read 66 4 = _
    rw [Mem.read_ofList _ _ (by omega)]
    simp only [maxHostName, maxNConnections, maxConnections] at hh hn
    simp [Reply.header, hh, hn]
  · funext k
    simp only [replyOfBytes, Mem.shift, Mem.ofList, maxHostName, maxNConnections, maxConnections]
    rw [List.getD_append_right _ _ _ _ (by simp)]
    simp

theorem encodeRecord_length_le {r : StatusreplyData} (hr : WellFormed r) :
    (encodeRecord r).length ≤ sizeofStatusreplyData := by
  have h₁ := hr.conname.2
  have h₂ := hr.conclass.2
  have h₃ := hr.user.2
  have h₄ := hr.contime.2
  simp only [maxConnectionName, maxClassName, maxUserName, maxTimeLength] at h₁ h₂ h₃ h₄
  rw [sizeofStatusreplyData_eq]
  unfold encodeRecord
  split <;> simp <;> omega

theorem length_flatMap_le {rs : List StatusreplyData} {b : ℕ}
    (hr : ∀ r ∈ rs, (encodeRecord r).length ≤ b) :
    (rs.flatMap encodeRecord).length ≤ b * rs.length := by
  induction rs with
  | nil => simp
  | cons r rs ih =>
      have h₁ := hr r (by simp)
      have h₂ := ih fun x hx => hr x (by simp [hx])
      rw [List.flatMap_cons, List.length_append, List.length_cons, Nat.mul_succ]
      omega

theorem encoded_length_le {rs : List StatusreplyData} (hr : ∀ r ∈ rs, WellFormed r) :
    (rs.flatMap encodeRecord).length ≤ sizeofStatusreplyData * rs.length :=
  length_flatMap_le fun r h => encodeRecord_length_le (hr r h)

/-- A record that lies in `details` is what a reader of the structure finds. -/
theorem stat_of_holds {reply : Reply} {i : ℕ} {r : StatusreplyData} (hr : WellFormed r)
    (h : Holds reply.details (sizeofStatusreplyData * i) r) (hi : i < maxConnections) :
    reply.stat i = r := by
  have h₁ := hr.conname
  have h₂ := hr.conclass
  have h₃ := hr.user
  have h₄ := hr.contime
  simp only [maxConnectionName, maxClassName, maxUserName, maxTimeLength, maxConnections] at *
  rw [sizeofStatusreplyData_eq] at h
  have hb (off : ℕ) (s : List Byte) (hs : (0 : Byte) ∉ s) (hoff : off + s.length < 61)
      (hm : HoldsStr reply.details (61 * i + off) s) : reply.stringAt (61 * i + off) = s := by
    apply Mem.cstr_read hm hs
    simp only [maxDetails, sizeofStatusreplyData_eq, maxConnections]
    omega
  simp only [Reply.stat, sizeofStatusreplyData_eq]
  rw [hb _ _ h₁.1 (by simp; omega) h.conname, hb _ _ h₂.1 (by simp; omega) h.conclass,
    h.active, hb _ _ h₃.1 (by simp; omega) h.user, hb _ _ h₄.1 (by simp; omega) h.contime]

/-- Details that announce `n` records and carry the first of them: all goes
well, and the first `MAXNCONNECTIONS` are filled and nothing behind them. -/
theorem recvDetails_encoded (src : Mem) (reply : Reply) {rs : List StatusreplyData} {n : ℕ}
    (hle : min n maxNConnections ≤ rs.length) (hr : ∀ r ∈ rs, WellFormed r)
    (hsrc : src.Has 0 (rs.flatMap encodeRecord)) :
    ∃ m, recvDetails src n (rs.flatMap encodeRecord).length reply =
        ⟨sizeofReply, { reply with details := m }, min n maxNConnections⟩ ∧
      (∀ j (h : j < rs.length), j < min n maxNConnections →
        Holds m (sizeofStatusreplyData * j) rs[j]) ∧
      (0 < n → ∀ k, sizeofStatusreplyData * min n maxNConnections ≤ k →
        m k = reply.details k) := by
  have hmax : (maxNConnections : ℤ) = 4 := rfl
  unfold recvDetails
  rcases Nat.eq_zero_or_pos n with rfl | hpos
  · exact ⟨_, rfl, fun j _ hj => absurd hj (by simp), fun h => absurd h (by simp)⟩
  · have hcount : (if (n : ℤ) > maxNConnections then (maxNConnections : ℤ) else n) =
        (min n maxNConnections : ℕ) := by
      rw [hmax]
      split <;> simp only [maxNConnections, maxConnections] <;> omega
    have hpos' : 0 < min n maxNConnections := by
      rw [Nat.lt_min]
      exact ⟨hpos, by decide⟩
    rw [hcount, if_neg (by omega), Int.toNat_natCast]
    -- the loop sees the announced records only, the rest of the details stays unread
    obtain ⟨rs₁, rs₂, rfl, hrs₁⟩ : ∃ rs₁ rs₂, rs = rs₁ ++ rs₂ ∧
      rs₁.length = min n maxNConnections :=
      ⟨rs.take _, rs.drop _, (List.take_append_drop _ rs).symm, List.length_take_of_le hle⟩
    rw [List.flatMap_append] at hsrc ⊢
    obtain ⟨c, hc, hhold⟩ := recvRecords_encoded src rs₁ 0
      ⟨0, (rs₁.flatMap encodeRecord ++ rs₂.flatMap encodeRecord).length, reply.details⟩
      (fun r h => hr r (List.mem_append_left _ h)) (Mem.has_append.mp hsrc).1 (by simp)
    have hframe := fun k hk => recvRecords_frame src rs₁.length 0
      ⟨0, (rs₁.flatMap encodeRecord ++ rs₂.flatMap encodeRecord).length, reply.details⟩
      (k := k) (Or.inr hk)
    rw [hc] at hframe
    rw [hrs₁] at hc
    rw [Nat.zero_add, hrs₁] at hframe
    refine ⟨c.details, ?_, fun j hj hj' => ?_, fun _ k hk => hframe k hk⟩
    · rw [hc]
      simp only [Nat.zero_add]
    · have := hhold j (by rw [hrs₁]; exact hj')
      rw [Nat.zero_add] at this
      rwa [List.getElem_append_left (by rw [hrs₁]; exact hj')]

/-- Accepted details hold the announced records, up to the limit of the loop. -/
theorem recvDetails_true {src : Mem} {reply : Reply} {rs : List StatusreplyData} {n dlen : ℕ}
    (hlen : rs.length = min n maxNConnections) (hr : ∀ r ∈ rs, Printed r)
    (hsrc : src.Has 0 (rs.flatMap encodeRecord)) (h : (recvDetails src n dlen reply).ret ≠ -1)
    (j : ℕ) (hj : j < rs.length) :
    WellFormed rs[j] ∧
      Holds (recvDetails src n dlen reply).reply.details (sizeofStatusreplyData * j) rs[j] := by
  have hmax : (maxNConnections : ℤ) = 4 := rfl
  have hcount : (if (n : ℤ) > maxNConnections then (maxNConnections : ℤ) else n) =
      (rs.length : ℕ) := by
    rw [hmax, hlen]
    split <;> simp only [maxNConnections, maxConnections] <;> omega
  unfold recvDetails at h ⊢
  rw [hcount, if_neg (by omega), Int.toNat_natCast] at h ⊢
  rcases hc : recvRecords src rs.length 0 ⟨0, dlen, reply.details⟩ with ⟨_ | _, i, c⟩ <;>
    rw [hc] at h
  · exact absurd rfl h
  · dsimp only
    obtain ⟨hwf, hd⟩ := recvRecords_true (c := ⟨0, dlen, reply.details⟩) hr hsrc (by rw [hc])
    obtain ⟨c', hc', hhold⟩ := recvRecords_encoded src rs 0 ⟨0, dlen, reply.details⟩ hwf hsrc hd
    obtain rfl : c' = c := (Prod.mk.inj (Prod.mk.inj (hc'.symm.trans hc)).2).2
    have := hhold j hj
    rw [Nat.zero_add] at this
    exact ⟨hwf _ (List.getElem_mem hj), this⟩

/-- What `recvfromReply` makes of such a reply. -/
theorem recvfromReply_encoded (junk : Mem) (reply prior : Reply) (rs : List StatusreplyData)
    {n : ℕ} (hv : reply.version = curVersion)
    (hn : atoi (reply.numconnections.set (maxNConnections - 1) 0).val = n)
    (hle : min n maxNConnections ≤ rs.length)
    (hr : ∀ r ∈ rs, WellFormed r) (hlen : rs.length ≤ maxConnections) :
    ∃ m, recvfromReply junk (some (reply.header ++ rs.flatMap encodeRecord)) prior =
        ⟨sizeofReply,
          { reply with
            hostname := reply.hostname.set (maxHostName - 1) 0
            numconnections := reply.numconnections.set (maxNConnections - 1) 0
            details := m }, min n maxNConnections⟩ ∧
      (∀ j (h : j < rs.length), j < min n maxNConnections →
        Holds m (sizeofStatusreplyData * j) rs[j]) ∧
      (0 < n → ∀ k, sizeofStatusreplyData * min n maxNConnections ≤ k →
        m k = prior.details k) := by
  have hbytes : (rs.flatMap encodeRecord).length ≤ maxDetails := by
    refine (encoded_length_le hr).trans ?_
    rw [maxDetails]
    exact Nat.mul_le_mul_left _ hlen
  have hcut : (reply.header ++ rs.flatMap encodeRecord).take sizeofReply =
      reply.header ++ rs.flatMap encodeRecord := by
    apply List.take_of_length_le
    rw [List.length_append, Reply.header_length]
    exact Nat.add_le_add_left hbytes 70
  have hstatus : (reply.header ++ rs.flatMap encodeRecord).length =
      70 + (rs.flatMap encodeRecord).length := by simp
  have h70 : sizeofReply - maxDetails = 70 := rfl
  simp only [recvfromReply, hcut, hstatus, h70, replyOfBytes_header, hv]
  rw [if_neg (by omega), if_neg (by omega), if_neg (by simp), Nat.add_sub_cancel_left, hn]
  exact recvDetails_encoded _ _ hle hr (Mem.has_ofList _ _)

end XinuConsole.ConnectUtils
