import XinuConsole.Consoled.StatusFits
import XinuConsole.DecoderSafety

/-!
The elapsed times `Status` prints, for every clock. `tbuf` and the decoder's
limit have room for eleven characters, as many as `99999:59:59` needs. The
difference of two clock values can be larger, and after the clock was stepped
back it is negative and every part that is not zero carries a sign.
-/

namespace XinuConsole.Consoled

open Lib ConnectUtils

/-- `char tbuf[ 12 ]`. -/
def sizeofTbuf : ℕ := 12

/-- The text for a row of the given `contime` has room, with its terminator, in
`tbuf`, and the client's decoder takes it wherever it finds it. -/
structure ElapsedFits (contime now : ℤ) : Prop where
  tbuf : (renderTime (int32 (now - contime)) ++ [0]).length ≤ sizeofTbuf
  decoder : ∀ (src : Mem) (dst : ℕ) (c : Cursor),
    HoldsStr src c.ptr (renderTime (int32 (now - contime))) →
      (renderTime (int32 (now - contime))).length + 1 ≤ c.dlen →
      (sget src dst maxTimeLength c).1 = true

/-- The numbers of seconds with a short text. From zero on these are the numbers
of less than 100000 hours. Below, a text has room for four digits of hours if
minutes and seconds have one digit each, for three if one of them has two
digits, and for two otherwise. -/
def ShortTime (sec : ℤ) : Prop :=
  if 0 ≤ sec then sec < 100000 * 3600
  else
    sec.natAbs < 100 * 3600 ∨
      sec.natAbs < 1000 * 3600 ∧ (sec.natAbs % 3600 < 600 ∨ sec.natAbs % 60 < 10) ∨
      sec.natAbs < 10000 * 3600 ∧ sec.natAbs % 3600 < 600 ∧ sec.natAbs % 60 < 10

instance : DecidablePred ShortTime := fun sec => by
  unfold ShortTime
  infer_instance

/-! ### The length of a text -/

theorem renderTime_neg_natCast (e : ℕ) :
    renderTime (-e) = fmt02D (-((e / 3600 : ℕ) : ℤ)) ++ [58] ++
      fmt02D (-((e % 3600 / 60 : ℕ) : ℤ)) ++ [58] ++ fmt02D (-((e % 3600 % 60 : ℕ) : ℤ)) := by
  simp only [renderTime, Int.neg_tdiv, Int.neg_tmod]
  rfl

theorem renderTime_natCast_length_lt_iff (e : ℕ) :
    (renderTime e).length < maxTimeLength ↔ e < 100000 * 3600 := by
  have hhours := fmt02D_length_le_iff (n := e / 3600) (k := 5) (by norm_num)
  have hmin := fmt02D_length_le (n := e % 3600 / 60) (k := 2) (by norm_num) (by omega)
  have hsec := fmt02D_length_le (n := e % 3600 % 60) (k := 2) (by norm_num) (by omega)
  have hmin' := two_le_fmt02D_length ((e % 3600 / 60 : ℕ) : ℤ)
  have hsec' := two_le_fmt02D_length ((e % 3600 % 60 : ℕ) : ℤ)
  rw [renderTime_natCast]
  simp only [List.length_append, List.length_singleton, maxTimeLength]
  omega

theorem renderTime_neg_natCast_length_lt_iff (e : ℕ) :
    (renderTime (-e)).length < maxTimeLength ↔
      e < 100 * 3600 ∨ e < 1000 * 3600 ∧ (e % 3600 < 600 ∨ e % 60 < 10) ∨
        e < 10000 * 3600 ∧ e % 3600 < 600 ∧ e % 60 < 10 := by
  have hhours2 := fmt02D_neg_length_le_iff (n := e / 3600) (k := 2) (by norm_num)
  have hhours3 := fmt02D_neg_length_le_iff (n := e / 3600) (k := 3) (by norm_num)
  have hhours4 := fmt02D_neg_length_le_iff (n := e / 3600) (k := 4) (by norm_num)
  have hmin := fmt02D_neg_length_le_iff (n := e % 3600 / 60) (k := 1) (by norm_num)
  have hsec := fmt02D_neg_length_le_iff (n := e % 3600 % 60) (k := 1) (by norm_num)
  have hmin3 := (fmt02D_neg_length_le_iff (n := e % 3600 / 60) (k := 2) (by norm_num)).mpr
    (by omega)
  have hsec3 := (fmt02D_neg_length_le_iff (n := e % 3600 % 60) (k := 2) (by norm_num)).mpr
    (by omega)
  have hmin2 := two_le_fmt02D_length (-((e % 3600 / 60 : ℕ) : ℤ))
  have hsec2 := two_le_fmt02D_length (-((e % 3600 % 60 : ℕ) : ℤ))
  rw [renderTime_neg_natCast]
  simp only [List.length_append, List.length_singleton, maxTimeLength]
  generalize (fmt02D (-((e / 3600 : ℕ) : ℤ))).length = hours at *
  generalize (fmt02D (-((e % 3600 / 60 : ℕ) : ℤ))).length = min at *
  generalize (fmt02D (-((e % 3600 % 60 : ℕ) : ℤ))).length = sec at *
  -- minutes and seconds take two or three characters each
  have hwidths : hours + 1 + min + 1 + sec < 12 ↔
      hours ≤ 3 ∨ hours ≤ 4 ∧ (min ≤ 2 ∨ sec ≤ 2) ∨ hours ≤ 5 ∧ min ≤ 2 ∧ sec ≤ 2 := by
    omega
  rw [hwidths, hhours2, hhours3, hhours4, hmin, hsec]
  omega

theorem renderTime_length_lt_iff (sec : ℤ) :
    (renderTime sec).length < maxTimeLength ↔ ShortTime sec := by
  unfold ShortTime
  rcases Int.eq_nat_or_neg sec with ⟨e, rfl | rfl⟩
  · rw [if_pos (by omega), renderTime_natCast_length_lt_iff]
    omega
  · rw [renderTime_neg_natCast_length_lt_iff, Int.natAbs_neg, Int.natAbs_natCast]
    split
    · next hzero => constructor <;> intro <;> omega
    · rfl

/-! ### The room for a text -/

/-- The decoder takes a string of fewer than `max` bytes, and no longer one. -/
theorem sget_str_iff {src : Mem} {s : List Byte} (hs : (0 : Byte) ∉ s) (dst max : ℕ) (c : Cursor)
    (hsrc : HoldsStr src c.ptr s) (hd : s.length + 1 ≤ c.dlen) :
    (sget src dst max c).1 = true ↔ s.length < max := by
  constructor
  · intro h
    obtain ⟨s', htake, -, hmax, -⟩ := sget_parse (Prod.ext h rfl : sget src dst max c = (true, _))
    obtain ⟨hrest, hs', -⟩ := takeString_eq_some htake
    have hcstr : cstr (c.rest src) = s := Mem.cstr_read hsrc hs hd
    have hcstr' : cstr (c.rest src) = s' := by
      rw [hrest]
      exact cstr_append_zero hs' _
    rwa [← hcstr, hcstr']
  · intro hmax
    rw [sget_str src hs dst max c hmax hsrc hd]

/-- **Elapsed times.** For all clock values, the text has room in `tbuf` and
within the decoder's limit if and only if the difference of the clock values is
that of a short time. -/
theorem elapsedFits_iff (contime now : ℤ) :
    ElapsedFits contime now ↔ ShortTime (int32 (now - contime)) := by
  rw [← renderTime_length_lt_iff]
  constructor
  · intro h
    have htbuf := h.tbuf
    rwa [List.length_append, List.length_singleton] at htbuf
  · intro hlt
    refine ⟨?_, fun src dst c hsrc hd => ?_⟩
    · rwa [List.length_append, List.length_singleton]
    · exact (sget_str_iff (zero_not_mem_renderTime _) dst maxTimeLength c hsrc hd).mpr hlt

/-- A row that was taken before the clock was set. -/
theorem elapsed_overflow :
    renderTime (int32 (1000000000 - 0)) = text "277777:46:40" ∧
      (renderTime (int32 (1000000000 - 0)) ++ [0]).length = sizeofTbuf + 1 ∧
      ¬ElapsedFits 0 1000000000 := by
  have htext : renderTime (int32 (1000000000 - 0)) = text "277777:46:40" := by decide
  refine ⟨htext, by rw [htext]; rfl, fun h => ?_⟩
  have htbuf := h.tbuf
  rw [htext] at htbuf
  exact absurd htbuf (by decide)

/-! ### The clock values of a run -/

section Run

variable {hostsCtl : Addr → List Byte → Bool} {m m' : Machine}

/-- The clock value of a held row was read when a request was served. -/
theorem contime_of_run {sys : Config.System} {file : Option (List Byte)}
    {labels : List (Event × List Effect)} (hload : Loaded sys file m)
    (hrun : Run (Step hostsCtl) m labels m') {i : ℕ} {row : Condata}
    (hrow : m'.config[i]? = some row) (hheld : row.conpid ≠ badPid) :
    ∃ junk pid fx, (.serve junk pid row.contime, fx) ∈ labels := by
  have hpast := hrun.invariant_past
    (J := fun past t => ∀ (i : ℕ) (row : Condata), t.config[i]? = some row → row.conpid ≠ badPid →
      ∃ junk pid fx, (Event.serve junk pid row.contime, fx) ∈ past) ?_ [] ?_
  · exact hpast i row hrow hheld
  · intro past t l t' hJ hs i row' hrow' hheld'
    obtain ⟨row, hrow, -, -⟩ := getElem?_of_names hs.names hrow'
    obtain ⟨row'', hrow'', hstep⟩ := hs.row hrow
    obtain rfl : row' = row'' := Option.some.inj (hrow'.symm.trans hrow'')
    cases hstep with
    | same =>
        obtain ⟨junk, pid, fx, hmem⟩ := hJ i _ hrow hheld'
        exact ⟨junk, pid, fx, List.mem_append_left _ hmem⟩
    | freed => exact absurd (freeRow_self row).1 hheld'
    | touched junk pid now fx => exact ⟨junk, pid, fx, List.mem_append_right _ List.mem_cons_self⟩
    | made junk pid now fx => exact ⟨junk, pid, fx, List.mem_append_right _ List.mem_cons_self⟩
  · intro i row hrow hheld
    exact absurd (hload.init.free row (List.mem_of_getElem? hrow)).1 hheld

/-- A status reply fits while all times that are printed are short. -/
theorem fits_of_shortTime {sys : Config.System} {file : Option (List Byte)}
    {labels : List (Event × List Effect)} (hload : Loaded sys file m)
    (hrun : Run (Step hostsCtl) m labels m') (req : Request) (now : ℤ)
    (hshort : ∀ row ∈ matching m'.config req, row.conpid ≠ badPid →
      ShortTime (int32 (now - row.contime))) (junk : Reply) (hostname : List Byte) :
    Fits junk hostname m'.config req now := by
  apply fits_of_times (hload.run hrun).2
  intro row hrow hheld
  exact (renderTime_length_lt_iff _).mpr (hshort row hrow hheld)

end Run

end XinuConsole.Consoled
