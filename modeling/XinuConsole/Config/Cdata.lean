import XinuConsole.Config.Layout
import XinuConsole.Lib.Slots

/-!
The writes that `makeEntry` makes to a row.

`makeEntryChecked` is `makeEntry` once more, on the row in memory: the array
`progargs` and the characters of `argsline`, which `strcat` fills. It has a
result only if every store stays inside its array.
-/

namespace XinuConsole.Config

open Lib

/-- A row in memory. An element of `progargs` is `none` before it is set, and
`some none` is the null pointer. -/
structure Cdata where
  conname : Str
  conclass : Str
  conprog : Str
  progargs : Slots (Option Str) maxNumberArgs
  argsline : CharArray (maxNumberArgs * maxArgLength)
  user : CharArray maxUserName
  conpid : ℤ
  contime : ℤ

/-- The loop that sets the elements of `progargs` to `NULL`, from the element `i`
on with `k` rounds to go. -/
def clearChecked {n : ℕ} : ℕ → ℕ → Slots (Option Str) n → Option (Slots (Option Str) n)
  | 0, _, progargs => some progargs
  | k + 1, i, progargs => (progargs.store i none).bind (clearChecked k (i + 1))

/-- The two members that the arguments go to. -/
structure Args where
  progargs : Slots (Option Str) maxNumberArgs
  argsline : CharArray (maxNumberArgs * maxArgLength)

/-- The calls of `strcat` for the argument `i`. -/
def appendArg {n : ℕ} (line : CharArray n) (i : ℕ) (arg : Str) : Option (CharArray n) :=
  (if i ≠ 0 then line.strcat (text " ") else some line).bind fun line => line.strcat arg.val

/-- The loop of `makeEntry` over the arguments, from the argument `i` on. -/
def progargsChecked : ℕ → ℕ → Option Token → Reader → Args →
    Option (Except Failure (Args × Option Token × Reader))
  | room + 1, i, some (.string arg), r, m =>
      (m.progargs.store i (some arg)).bind fun progargs =>
        let (tk, r) := tknext r
        if maxArgLength ≤ arg.val.length then some (.error (.argLength arg.val r.linecnt))
        else
          (appendArg m.argsline i arg).bind fun argsline =>
            progargsChecked room (i + 1) tk r ⟨progargs, argsline⟩
  | _, _, tk, r, m => some (.ok (m, tk, r))

/-- The part of `makeEntry` that fills a row. `heap` is what `argsline` holds
when the row is allocated, by the number of tokens left. -/
def entryChecked (sys : System) (heap : ℕ → CharArray (maxNumberArgs * maxArgLength)) (conname : Str)
    (r : Reader) : Option (Except Failure (Cdata × Reader)) :=
  let line := (heap r.tokens.length).set 0 0
  match matchtoken r with
  | .error e => some (.error e)
  | .ok (conclass, r) =>
    match matchtoken r with
    | .error e => some (.error e)
    | .ok (conprog, r) =>
      (clearChecked maxNumberArgs 0 (Slots.fresh _ _)).bind fun progargs =>
        if maxConnectionName ≤ conname.val.length then
          some (.error (.nameLength conname.val r.linecnt))
        else if maxClassName ≤ conclass.val.length then
          some (.error (.classLength conclass.val r.linecnt))
        else
          (progargsChecked maxNumberArgs 0 (tknext r).1 (tknext r).2 ⟨progargs, line⟩).map fun
            | .error e => .error e
            | .ok (_, some (.string _), r) => .error (.malformed r.linecnt)
            | .ok (m, _, r) =>
                .ok ({ conname := conname
                       conclass := conclass
                       conprog := conprog
                       progargs := m.progargs
                       argsline := m.argsline
                       user := freshUser (sys.user r.tokens.length)
                       conpid := badPid
                       contime := sys.contime r.tokens.length }, r)

/-! ### The stores of the arguments -/

/-- A computation on memory stays inside it and ends as a pure one does. -/
inductive Agrees {α β : Type} (R : α → β → Prop) : Option (Except Failure α) → Except Failure β → Prop
  | ok {a : α} {b : β} (h : R a b) : Agrees R (some (.ok a)) (.ok b)
  | error (e : Failure) : Agrees R (some (.error e)) (.error e)

theorem Agrees.of_ok {α β : Type} {R : α → β → Prop} {checked : Option (Except Failure α)} {b : β}
    (h : Agrees R checked (.ok b)) : ∃ a, checked = some (.ok a) ∧ R a b := by
  cases h with
  | ok h => exact ⟨_, rfl, h⟩

theorem Agrees.of_error {α β : Type} {R : α → β → Prop} {checked : Option (Except Failure α)}
    {e : Failure} (h : Agrees R checked (.error e)) : checked = some (.error e) := by
  cases h
  rfl

/-- The arguments that the two members hold. -/
structure Holds (m : Args) (args : List (List Byte)) : Prop where
  progargs : ∀ i < maxNumberArgs, (m.progargs.load i).map (Option.map Subtype.val) = some args[i]?
  argsline : cstr m.argsline.val = argsline args

theorem argsline_snoc (args : List (List Byte)) (arg : List Byte) :
    argsline (args ++ [arg]) = if args = [] then arg else argsline args ++ 32 :: arg := by
  induction args with
  | nil => simp [argsline]
  | cons a args ih =>
      rw [if_neg (by simp), List.cons_append]
      cases args with
      | nil => simp [argsline, List.intercalate_cons_cons]
      | cons b args =>
          rw [if_neg (by simp)] at ih
          have hcons : ∀ l, argsline (a :: b :: l) = a ++ 32 :: argsline (b :: l) := fun l => by
            simp [argsline, List.intercalate_cons_cons]
          rw [List.cons_append, hcons, hcons, ← List.cons_append, ih, List.append_assoc,
            List.cons_append]

/-- All elements are null behind the loop. -/
theorem clearChecked_all {n : ℕ} (k i : ℕ) (progargs : Slots (Option Str) n) (hk : i + k = n)
    (hset : ∀ j < i, progargs.load j = some none) :
    ∃ progargs', clearChecked k i progargs = some progargs' ∧
      ∀ j < n, progargs'.load j = some none := by
  induction k generalizing i progargs with
  | zero => exact ⟨progargs, rfl, fun j hj => hset j (by omega)⟩
  | succ k ih =>
      obtain ⟨p, hstore, hload, hother⟩ := progargs.store_of_lt (show i < n by omega) none
      rw [clearChecked, hstore]
      refine ih (i + 1) p (by omega) fun j hj => ?_
      rcases Nat.lt_succ_iff_lt_or_eq.mp hj with hlt | rfl
      · rw [hother j hlt.ne, hset j hlt]
      · exact hload

/-- There is room for the text of one more argument. -/
theorem appendArg_of_lt {line : CharArray (maxNumberArgs * maxArgLength)} {args : List (List Byte)}
    {arg : Str} (hline : cstr line.val = argsline args) (hargs : ∀ a ∈ args, a.length < maxArgLength)
    (hroom : args.length < maxNumberArgs) (harg : arg.val.length < maxArgLength) :
    ∃ line', appendArg line args.length arg = some line' ∧
      cstr line'.val = argsline (args ++ [arg.val]) := by
  have hlen := argsline_length_le hargs
  have hself : cstr arg.val = arg.val := cstr_of_not_mem arg.property
  simp only [maxNumberArgs, maxArgLength] at hroom harg hlen
  rw [argsline_snoc, appendArg]
  cases args with
  | nil =>
      have hfit : (cstr line.val).length + (cstr arg.val).length < maxNumberArgs * maxArgLength := by
        rw [hline, hself]
        simp only [argsline, List.intercalate_nil, List.length_nil, maxNumberArgs, maxArgLength]
        omega
      obtain ⟨line', hcat, hcstr⟩ := CharArray.strcat_of_lt hfit
      refine ⟨line', hcat, ?_⟩
      rw [hcstr, hline, hself]
      rfl
  | cons a args =>
      simp only [List.length_cons] at hroom hlen
      have hblank : (cstr line.val).length + (cstr (text " ")).length <
          maxNumberArgs * maxArgLength := by
        rw [hline, show cstr (text " ") = [32] from by decide]
        simp only [List.length_singleton, maxNumberArgs, maxArgLength]
        omega
      obtain ⟨line₁, hcat₁, hcstr₁⟩ := CharArray.strcat_of_lt hblank
      rw [hline, show cstr (text " ") = [32] from by decide] at hcstr₁
      have hfit : (cstr line₁.val).length + (cstr arg.val).length < maxNumberArgs * maxArgLength := by
        rw [hcstr₁, hself]
        simp only [List.length_append, List.length_singleton, maxNumberArgs, maxArgLength]
        omega
      obtain ⟨line', hcat, hcstr⟩ := CharArray.strcat_of_lt hfit
      refine ⟨line', ?_, ?_⟩
      · rw [if_pos (by simp), hcat₁]
        exact hcat
      · rw [hcstr, hcstr₁, hself, if_neg (by simp), List.append_assoc]
        rfl

/-- One more argument is held. -/
theorem Holds.snoc {m : Args} {args : List (List Byte)} (h : Holds m args) {arg : Str}
    {p : Slots (Option Str) maxNumberArgs}
    (hload : p.load args.length = some (some arg))
    (hother : ∀ j, j ≠ args.length → p.load j = m.progargs.load j)
    {line : CharArray (maxNumberArgs * maxArgLength)}
    (hline : cstr line.val = Config.argsline (args ++ [arg.val])) :
    Holds ⟨p, line⟩ (args ++ [arg.val]) := by
  refine ⟨fun i hi => ?_, hline⟩
  by_cases hlast : i = args.length
  · subst hlast
    rw [hload, List.getElem?_concat_length]
    rfl
  · rw [hother i hlast, h.progargs i hi]
    congr 1
    rcases Nat.lt_or_gt_of_ne hlast with hlt | hgt
    · rw [List.getElem?_append_left hlt]
    · rw [List.getElem?_eq_none hgt.le, List.getElem?_eq_none]
      rw [List.length_append, List.length_singleton]
      exact hgt

theorem progargsChecked_agrees (room : ℕ) (tk : Option Token) (r : Reader) {m : Args}
    {args : List (List Byte)} (hroom : args.length + room = maxNumberArgs) (h : Holds m args)
    (hargs : ∀ a ∈ args, a.length < maxArgLength) :
    Agrees (fun x y => Holds x.1 (args ++ y.1) ∧ x.2 = y.2)
      (progargsChecked room args.length tk r m) (progargs room tk r) := by
  induction room generalizing tk r m args with
  | zero =>
      have hstop : progargs 0 tk r = .ok ([], tk, r) := by
        rw [progargs]
        intro _ _ h
        exact absurd h (by simp)
      have hstop' : progargsChecked 0 args.length tk r m = some (.ok (m, tk, r)) := by
        rw [progargsChecked]
        intro _ _ h
        exact absurd h (by simp)
      rw [hstop, hstop']
      exact .ok ⟨by rwa [List.append_nil], rfl⟩
  | succ room ih =>
      rcases tk with _ | _ | arg
      · exact .ok ⟨by rwa [List.append_nil], rfl⟩
      · exact .ok ⟨by rwa [List.append_nil], rfl⟩
      · have hlt : args.length < maxNumberArgs := by omega
        obtain ⟨p, hstore, hload, hother⟩ := m.progargs.store_of_lt hlt (some arg)
        rw [progargsChecked, progargs, hstore]
        dsimp only [Option.bind_some]
        by_cases hlong : maxArgLength ≤ arg.val.length
        · rw [if_pos hlong, if_pos hlong]
          exact .error _
        · rw [if_neg hlong, if_neg hlong]
          obtain ⟨line, happend, hline⟩ :=
            appendArg_of_lt h.argsline hargs hlt (Nat.lt_of_not_le hlong)
          rw [happend, Option.bind_some]
          have hroom' : (args ++ [arg.val]).length + room = maxNumberArgs := by
            rw [List.length_append, List.length_singleton]
            omega
          have hargs' : ∀ a ∈ args ++ [arg.val], a.length < maxArgLength := by
            intro a ha
            rcases List.mem_append.mp ha with ha | ha
            · exact hargs a ha
            · obtain rfl := List.mem_singleton.mp ha
              exact Nat.lt_of_not_le hlong
          have hnext := ih (tknext r).1 (tknext r).2 hroom' (h.snoc hload hother hline) hargs'
          rw [List.length_append, List.length_singleton] at hnext
          generalize progargsChecked room (args.length + 1) _ _ _ = checked at hnext ⊢
          generalize progargs room _ _ = pure at hnext ⊢
          cases hnext with
          | ok h =>
              refine .ok ⟨?_, h.2⟩
              have hholds := h.1
              rwa [List.append_assoc] at hholds
          | error e => exact .error e

/-! ### A row -/

/-- The row in memory is this one. -/
structure Cdata.Represents (cdata : Cdata) (row : Condata) : Prop where
  conname : cdata.conname.val = row.conname
  conclass : cdata.conclass.val = row.conclass
  conprog : cdata.conprog.val = row.conprog
  args : Holds ⟨cdata.progargs, cdata.argsline⟩ row.progargs
  argsline : row.argsline = Config.argsline row.progargs
  user : cdata.user = row.user
  conpid : cdata.conpid = row.conpid
  contime : cdata.contime = row.contime

theorem cstr_set_zero {n : ℕ} (a : CharArray n) : cstr (a.set 0 0).val = [] := by
  show cstr (a.val.set 0 0) = []
  cases a.val <;> rfl

theorem entryChecked_agrees (sys : System) (heap : ℕ → CharArray (maxNumberArgs * maxArgLength))
    (conname : Str) (r : Reader) :
    Agrees (fun x y => x.1.Represents y.1 ∧ x.2 = y.2) (entryChecked sys heap conname r)
      (entry sys conname r) := by
  obtain ⟨p, hclear, hnull⟩ := clearChecked_all maxNumberArgs 0
    (Slots.fresh (Option Str) maxNumberArgs) (Nat.zero_add _) (fun j hj => absurd hj (by omega))
  have hempty : Holds ⟨p, (heap r.tokens.length).set 0 0⟩ [] :=
    ⟨fun i hi => by rw [hnull i hi]; rfl, cstr_set_zero _⟩
  unfold entryChecked entry
  cases matchtoken r with
  | error e => exact .error e
  | ok x₁ =>
      obtain ⟨conclass, r₁⟩ := x₁
      dsimp only
      cases matchtoken r₁ with
      | error e => exact .error e
      | ok x₂ =>
          obtain ⟨conprog, r₂⟩ := x₂
          dsimp only
          rw [hclear, Option.bind_some]
          split
          · exact .error _
          split
          · exact .error _
          have hargs := progargsChecked_agrees maxNumberArgs (tknext r₂).1 (tknext r₂).2
            (Nat.zero_add _) hempty (fun _ ha => absurd ha List.not_mem_nil)
          rw [List.length_nil] at hargs
          split
          · next h =>
            rw [h] at hargs
            rw [hargs.of_error]
            exact .error _
          · next h =>
            rw [h] at hargs
            obtain ⟨⟨m, tk, r'⟩, hchecked, -, heq⟩ := hargs.of_ok
            obtain ⟨rfl, rfl⟩ := Prod.mk.inj heq
            rw [hchecked]
            exact .error _
          · next args tk r' hstop h =>
            rw [h] at hargs
            obtain ⟨⟨m, tk, r'⟩, hchecked, hm, heq⟩ := hargs.of_ok
            obtain ⟨rfl, rfl⟩ := Prod.mk.inj heq
            rw [hchecked]
            rcases tk with _ | _ | sb
            · exact .ok ⟨⟨rfl, rfl, rfl, hm, rfl, rfl, rfl, rfl⟩, rfl⟩
            · exact .ok ⟨⟨rfl, rfl, rfl, hm, rfl, rfl, rfl, rfl⟩, rfl⟩
            · exact absurd rfl (hstop sb)

theorem entryChecked_length {sys : System} {heap : ℕ → CharArray (maxNumberArgs * maxArgLength)}
    {conname : Str} {r r' : Reader} {cdata : Cdata}
    (h : entryChecked sys heap conname r = some (.ok (cdata, r'))) :
    r'.tokens.length ≤ r.tokens.length := by
  have hagrees := entryChecked_agrees sys heap conname r
  rw [h] at hagrees
  generalize hentry : entry sys conname r = result at hagrees
  cases hagrees with
  | @ok _ b hb =>
      obtain ⟨row, r''⟩ := b
      obtain rfl : r' = r'' := hb.2
      exact entry_length hentry

/-! ### The table -/

section Table

variable (sys : System) (heap : ℕ → CharArray (maxNumberArgs * maxArgLength))

/-- `makeEntry`. Nothing comes of it if `tv[ strlen( tv ) - 1 ]` is in front of
the string. -/
def makeEntryChecked (defaulthost : Option (List Byte)) (r : Reader) :
    Option (Except Failure (Option (Cdata × Option (List Byte) × Reader))) :=
  match _hskip : skipNewlines r.tokens r.linecnt with
  | (none, _) => some (.ok none)
  | (some tv, r₁) =>
    match tv.val.getLast? with
    | none => none
    | some c =>
      if c = 58 then
        makeEntryChecked (if tv.val.dropLast = [] then none else some tv.val.dropLast) r₁
      else
        match _hentry : entryChecked sys heap tv r₁ with
        | none => none
        | some (.error e) => some (.error e)
        | some (.ok (cdata, r₂)) =>
            if defaulthost.all sys.ismyname then some (.ok (some (cdata, defaulthost, r₂)))
            else makeEntryChecked defaulthost r₂
termination_by r.tokens.length
decreasing_by
  · exact skipNewlines_length _hskip
  · exact (entryChecked_length _hentry).trans_lt (skipNewlines_length _hskip)

theorem makeEntryChecked_string {host : Option (List Byte)} {r r₁ : Reader} {tv : Str} {c : Byte}
    (hskip : skipNewlines r.tokens r.linecnt = (some tv, r₁)) (hlast : tv.val.getLast? = some c) :
    makeEntryChecked sys heap host r =
      if c = 58 then
        makeEntryChecked sys heap (if tv.val.dropLast = [] then none else some tv.val.dropLast) r₁
      else
        match entryChecked sys heap tv r₁ with
        | none => none
        | some (.error e) => some (.error e)
        | some (.ok (cdata, r₂)) =>
            if host.all sys.ismyname then some (.ok (some (cdata, host, r₂)))
            else makeEntryChecked sys heap host r₂ := by
  rw [makeEntryChecked]
  split
  · next hskip' => exact absurd (hskip.symm.trans hskip') (by simp)
  · next tv' r' hskip' =>
    obtain ⟨h₁, rfl⟩ := Prod.mk.inj (hskip'.symm.trans hskip)
    obtain rfl : tv' = tv := Option.some.inj h₁
    split
    · next hnone => exact absurd (hnone.symm.trans hlast) (by simp)
    · next c' hc =>
      obtain rfl : c' = c := Option.some.inj (hc.symm.trans hlast)
      split
      · rfl
      · rcases entryChecked sys heap tv' r' with _ | _ | ⟨cdata, r₂⟩ <;> rfl

/-- The answers of the two models of `makeEntry`. -/
inductive Answers : Option (Cdata × Option (List Byte) × Reader) →
    Option (Condata × Option (List Byte) × Reader) → Prop
  | none : Answers none none
  | some {cdata : Cdata} {row : Condata} (h : cdata.Represents row) (host : Option (List Byte))
      (r : Reader) : Answers (some (cdata, host, r)) (some (row, host, r))

/-- No store of `makeEntry` is outside, unless one in front of an empty string is. -/
theorem makeEntryChecked_agrees {host : Option (List Byte)} {r : Reader}
    (h : makeEntry sys host r ≠ .error .outside) :
    Agrees Answers (makeEntryChecked sys heap host r) (makeEntry sys host r) := by
  fun_induction makeEntry sys host r with
  | case1 host r r' hskip =>
      rw [makeEntryChecked]
      split
      · exact .ok .none
      · next hskip' => exact absurd (hskip.symm.trans hskip') (by simp)
  | case2 => exact absurd rfl h
  | case3 host r tv r₁ hskip hlast ih =>
      rw [makeEntryChecked_string sys heap hskip hlast, if_pos rfl]
      exact ih h
  | case4 host r tv r₁ hskip c hlast hne e hentry =>
      have hagrees := entryChecked_agrees sys heap tv r₁
      rw [hentry] at hagrees
      rw [makeEntryChecked_string sys heap hskip hlast, if_neg hne, hagrees.of_error]
      exact .error e
  | case5 host r tv r₁ hskip c hlast hne row r₂ hentry hmine =>
      have hagrees := entryChecked_agrees sys heap tv r₁
      rw [hentry] at hagrees
      obtain ⟨⟨cdata, _⟩, hchecked, hrow, rfl⟩ := hagrees.of_ok
      rw [makeEntryChecked_string sys heap hskip hlast, if_neg hne, hchecked]
      dsimp only
      rw [if_pos hmine]
      exact .ok (.some hrow host _)
  | case6 host r tv r₁ hskip c hlast hne row r₂ hentry hmine ih =>
      have hagrees := entryChecked_agrees sys heap tv r₁
      rw [hentry] at hagrees
      obtain ⟨⟨cdata, _⟩, hchecked, -, rfl⟩ := hagrees.of_ok
      rw [makeEntryChecked_string sys heap hskip hlast, if_neg hne, hchecked]
      dsimp only
      rw [if_neg hmine]
      exact ih h

end Table

/-! ### Texts without a NUL -/

/-- The strings of a text without a NUL are not empty. -/
theorem yylex_named {file : List Byte} (hnul : (0 : Byte) ∉ file) :
    ∀ sb, Token.string sb ∈ yylex file → sb.val ≠ [] := by
  induction hlen : file.length using Nat.strong_induction_on generalizing file with
  | h len ih =>
      by_cases hne : file = []
      · subst hne
        intro sb hsb
        rw [yylex, scan_nil] at hsb
        exact absurd hsb List.not_mem_nil
      obtain ⟨m, rest, tk, rfl, hm⟩ := exists_lexeme hne
      have hpos := List.length_pos_iff.mpr hm.ne_nil
      rw [List.mem_append, not_or] at hnul
      intro sb hsb
      rw [hm.yylex, List.mem_append] at hsb
      rcases hsb with hsb | hsb
      · cases hm with
        | text hne =>
            obtain rfl : sb = newsb m := by simpa using hsb
            rw [show (newsb m).val = m from cstr_of_not_mem hnul.1]
            exact hne
        | _ => simp at hsb
      · exact ih rest.length (by rw [← hlen, List.length_append]; omega) hnul.2 rfl sb hsb

theorem Advances.suffix {r r' : Reader} (h : Advances r r') : r'.tokens <:+ r.tokens := by
  induction h with
  | refl => exact List.suffix_rfl
  | @tail r' _ _ hstep ih =>
      subst hstep
      refine List.IsSuffix.trans ?_ ih
      rcases r' with ⟨_ | ⟨_ | sb, ts⟩, n⟩
      · exact List.suffix_rfl
      · exact List.suffix_cons ..
      · exact List.suffix_cons ..

theorem skipNewlines_string {ts : List Token} {n : ℕ} {tv : Str} {r : Reader}
    (h : skipNewlines ts n = (some tv, r)) : Token.string tv :: r.tokens <:+ ts := by
  induction ts generalizing n with
  | nil => exact absurd (Prod.mk.inj h).1 (by simp)
  | cons t ts ih =>
      cases t with
      | newline => exact (ih h).trans (List.suffix_cons ..)
      | string sb =>
          obtain ⟨h₁, rfl⟩ := Prod.mk.inj h
          obtain rfl := Option.some.inj h₁
          exact List.suffix_rfl

theorem matchtoken_ne_outside {r : Reader} {e : Failure} (h : matchtoken r = .error e) :
    e ≠ .outside := by
  unfold matchtoken at h
  split at h <;> cases h
  simp

theorem progargs_ne_outside {room : ℕ} {tk : Option Token} {r : Reader} {e : Failure}
    (h : progargs room tk r = .error e) : e ≠ .outside := by
  fun_induction progargs room tk r with
  | case1 =>
      cases h
      simp
  | case2 _ _ _ _ _ _ _ _ hrest ih =>
      cases h
      exact ih hrest
  | case3 => cases h
  | case4 => cases h

theorem entry_ne_outside {sys : System} {conname : Str} {r : Reader} {e : Failure}
    (h : entry sys conname r = .error e) : e ≠ .outside := by
  unfold entry at h
  split at h
  · next h₁ =>
    cases h
    exact matchtoken_ne_outside h₁
  split at h
  · next h₂ =>
    cases h
    exact matchtoken_ne_outside h₂
  split at h
  · cases h
    simp
  split at h
  · cases h
    simp
  split at h
  · next h₃ =>
    cases h
    exact progargs_ne_outside h₃
  · cases h
    simp
  · exact absurd h (by simp)

theorem makeEntry_ne_outside (sys : System) (host : Option (List Byte)) {r : Reader}
    (h : ∀ sb, Token.string sb ∈ r.tokens → sb.val ≠ []) : makeEntry sys host r ≠ .error .outside := by
  fun_induction makeEntry sys host r with
  | case1 => simp
  | case2 _ _ tv _ hskip hlast =>
      have hmem := (skipNewlines_string hskip).subset List.mem_cons_self
      exact absurd (List.getLast?_eq_none_iff.mp hlast) (h tv hmem)
  | case3 _ _ _ _ hskip _ ih =>
      exact ih fun sb hsb => h sb ((skipNewlines_advances hskip).suffix.subset hsb)
  | case4 _ _ _ _ _ _ _ _ _ hentry =>
      intro he
      cases he
      exact entry_ne_outside hentry rfl
  | case5 => simp
  | case6 _ _ _ _ hskip _ _ _ _ _ hentry _ ih =>
      have hadvances := (skipNewlines_advances hskip).trans (entry_advances hentry)
      exact ih fun sb hsb => h sb ((Advances.suffix hadvances).subset hsb)

/-! ### The tokens of a row -/

theorem tknext_tokens (r : Reader) : (tknext r).1.toList ++ (tknext r).2.tokens = r.tokens := by
  rcases r with ⟨_ | ⟨_ | sb, ts⟩, n⟩ <;> rfl

theorem matchtoken_tokens {r r' : Reader} {sb : Str} (h : matchtoken r = .ok (sb, r')) :
    r.tokens = .string sb :: r'.tokens := by
  have htokens := tknext_tokens r
  unfold matchtoken at h
  split at h
  · next htk =>
    cases h
    rw [← htokens, htk]
    rfl
  · exact absurd h (by simp)

theorem tknext_none {r : Reader} (h : (tknext r).1 = none) : (tknext r).2.tokens = [] := by
  rcases r with ⟨_ | ⟨_ | sb, ts⟩, n⟩
  · rfl
  · exact absurd h (by simp [tknext])
  · exact absurd h (by simp [tknext])

/-- The arguments are the next strings. -/
theorem progargs_strings {room : ℕ} {tk tk' : Option Token} {r r' : Reader}
    {args : List (List Byte)} (h : progargs room tk r = .ok (args, tk', r'))
    (hend : tk = none → r.tokens = []) :
    ∃ ws : List Str, args = ws.map Subtype.val ∧
      tk.toList ++ r.tokens = ws.map .string ++ (tk'.toList ++ r'.tokens) ∧
      (tk' = none → r'.tokens = []) := by
  induction room generalizing tk r args with
  | zero =>
      rw [progargs] at h
      · cases h
        exact ⟨[], rfl, rfl, hend⟩
      · intro _ _ h
        exact absurd h (by simp)
  | succ room ih =>
      rcases tk with _ | _ | arg
      · cases h
        exact ⟨[], rfl, rfl, hend⟩
      · cases h
        exact ⟨[], rfl, rfl, hend⟩
      · rw [progargs] at h
        dsimp only at h
        split at h
        · exact absurd h (by simp)
        split at h
        · exact absurd h (by simp)
        · next hrest =>
          cases h
          obtain ⟨ws, rfl, htokens, hend'⟩ := ih hrest tknext_none
          refine ⟨arg :: ws, rfl, ?_, hend'⟩
          rw [tknext_tokens] at htokens
          rw [htokens]
          rfl

/-- The entry of a row: its strings up to the end of a line or of the file, with
the arguments `args`, behind which `rest` is left. -/
structure EntryOf (row : Condata) (args : List Str) (rest ts : List Token) : Prop where
  progargs : row.progargs = args.map Subtype.val
  tokens : ∃ front conname conclass conprog tail,
    ts = front ++ .string conname :: .string conclass :: .string conprog :: (args.map .string ++ tail) ∧
      row.conname = conname.val ∧ row.conclass = conclass.val ∧ row.conprog = conprog.val ∧
      (tail = .newline :: rest ∨ tail = [] ∧ rest = [])

theorem EntryOf.append {row : Condata} {args : List Str} {rest ts ts' : List Token}
    (h : EntryOf row args rest ts) (hts : ts <:+ ts') : EntryOf row args rest ts' := by
  obtain ⟨hargs, front, conname, conclass, conprog, tail, rfl, hnames⟩ := h
  obtain ⟨front', rfl⟩ := hts
  exact ⟨hargs, front' ++ front, conname, conclass, conprog, tail, by rw [List.append_assoc], hnames⟩

theorem entry_tokens {sys : System} {conname : Str} {r r' : Reader} {row : Condata}
    (h : entry sys conname r = .ok (row, r')) :
    ∃ args, EntryOf row args r'.tokens (.string conname :: r.tokens) := by
  unfold entry at h
  split at h
  · exact absurd h (by simp)
  next conclass r₁ h₁ =>
  split at h
  · exact absurd h (by simp)
  next conprog r₂ h₂ =>
  split at h
  · exact absurd h (by simp)
  split at h
  · exact absurd h (by simp)
  split at h
  · exact absurd h (by simp)
  · exact absurd h (by simp)
  next tk r₃ hstop h₃ =>
  cases h
  obtain ⟨ws, hws, htokens, hend⟩ := progargs_strings h₃ tknext_none
  rw [tknext_tokens] at htokens
  refine ⟨ws, hws, [], conname, conclass, conprog, tk.toList ++ r'.tokens, ?_, rfl, rfl, rfl, ?_⟩
  · rw [matchtoken_tokens h₁, matchtoken_tokens h₂, htokens]
    rfl
  · rcases tk with _ | _ | sb
    · exact .inr ⟨hend rfl, hend rfl⟩
    · exact .inl rfl
    · exact absurd rfl (hstop sb)

theorem makeEntry_tokens {sys : System} {host host' : Option (List Byte)} {r r' : Reader}
    {row : Condata} (h : makeEntry sys host r = .ok (some (row, host', r'))) :
    ∃ args, EntryOf row args r'.tokens r.tokens := by
  fun_induction makeEntry sys host r with
  | case1 => exact absurd h (by simp)
  | case2 => exact absurd h (by simp)
  | case3 _ _ _ _ hskip _ ih =>
      obtain ⟨args, hentry⟩ := ih h
      exact ⟨args, hentry.append (Advances.suffix (skipNewlines_advances hskip))⟩
  | case4 => exact absurd h (by simp)
  | case5 _ _ _ _ hskip _ _ _ _ _ hentry =>
      cases h
      obtain ⟨args, hargs⟩ := entry_tokens hentry
      exact ⟨args, hargs.append (skipNewlines_string hskip)⟩
  | case6 _ _ _ _ hskip _ _ _ _ _ hentry _ ih =>
      obtain ⟨args, hargs⟩ := ih h
      have hadvances := (skipNewlines_advances hskip).trans (entry_advances hentry)
      exact ⟨args, hargs.append (Advances.suffix hadvances)⟩

/-- **The argument line.** In a text without a NUL no call of `makeEntry` stores
outside `argsline` and `progargs`. In a row that it returns, `argsline` is the
arguments of the entry with a blank between them, and `progargs` has them in front
and null pointers behind them. -/
theorem makeEntry_arguments (sys : System) (heap : ℕ → CharArray (maxNumberArgs * maxArgLength))
    {file : List Byte} (hnul : (0 : Byte) ∉ file) {r : Reader} (hr : r.tokens <:+ yylex file)
    (host : Option (List Byte)) :
    ∃ result, makeEntryChecked sys heap host r = some result ∧
      ∀ cdata host' r', result = .ok (some (cdata, host', r')) →
        ∃ args : List Str, args.length ≤ maxNumberArgs ∧
          (∃ front tail, r.tokens = front ++ .string cdata.conname :: .string cdata.conclass ::
              .string cdata.conprog :: (args.map .string ++ tail) ∧
            (tail = .newline :: r'.tokens ∨ tail = [] ∧ r'.tokens = [])) ∧
          cstr cdata.argsline.val = ([32] : List Byte).intercalate (args.map Subtype.val) ∧
          ∀ i < maxNumberArgs, cdata.progargs.load i = some args[i]? := by
  have hinside := makeEntry_ne_outside sys host fun sb hsb =>
    yylex_named hnul sb (hr.subset hsb)
  have hagrees := makeEntryChecked_agrees sys heap hinside
  cases hmake : makeEntry sys host r with
  | error e =>
      rw [hmake] at hagrees
      exact ⟨_, hagrees.of_error, fun _ _ _ h => absurd h (by simp)⟩
  | ok answer =>
      rw [hmake] at hagrees
      obtain ⟨_, hchecked, hanswers⟩ := hagrees.of_ok
      refine ⟨_, hchecked, fun cdata host' r' h => ?_⟩
      cases h
      cases hanswers with
      | some hrow =>
          obtain ⟨args, hargs, front, conname, conclass, conprog, tail, htokens, hnames⟩ :=
            makeEntry_tokens hmake
          have hname : cdata.conname = conname := Subtype.ext (hrow.conname.trans hnames.1)
          have hclass : cdata.conclass = conclass := Subtype.ext (hrow.conclass.trans hnames.2.1)
          have hprog : cdata.conprog = conprog := Subtype.ext (hrow.conprog.trans hnames.2.2.1)
          refine ⟨args, ?_, ⟨front, tail, ?_, hnames.2.2.2⟩, ?_, fun i hi => ?_⟩
          · rw [← List.length_map Subtype.val, ← hargs]
            exact Condata.progargs_le _
          · rw [hname, hclass, hprog]
            exact htokens
          · rw [← hargs]
            exact hrow.args.argsline
          · have hload := hrow.args.progargs i hi
            rw [hargs, List.getElem?_map] at hload
            exact Option.map_injective (Option.map_injective Subtype.val_injective) hload

def everyHost : System := ⟨fun _ => true, fun _ => CharArray.zero _, fun _ => 0⟩

/-- An entry with two arguments. -/
def catFile : List Byte := text "argo mips cat a b"

theorem yylex_catFile : yylex catFile = .string (newsb (text "argo")) ::
    ([newsb (text "mips"), newsb (text "cat"), newsb (text "a"), newsb (text "b")].map .string) := by
  have hwords : Words [newsb (text "argo"), newsb (text "mips"), newsb (text "cat"),
      newsb (text "a"), newsb (text "b")] catFile :=
    .cons (w := newsb (text "argo")) (by decide) (.blank (Or.inr rfl)) <|
    .cons (w := newsb (text "mips")) (by decide) (.blank (Or.inr rfl)) <|
    .cons (w := newsb (text "cat")) (by decide) (.blank (Or.inr rfl)) <|
    .cons (w := newsb (text "a")) (by decide) (.blank (Or.inr rfl)) <|
    .single (w := newsb (text "b")) (by decide)
  have happend : yylex (catFile ++ []) = [newsb (text "argo"), newsb (text "mips"),
      newsb (text "cat"), newsb (text "a"), newsb (text "b")].map .string ++ yylex [] :=
    hwords.yylex_append (by simp)
  rwa [List.append_nil, show yylex [] = [] from scan_nil _, List.append_nil] at happend

theorem makeEntryChecked_catFile : ∃ cdata r',
    makeEntryChecked everyHost (fun _ => CharArray.zero _) none ⟨yylex catFile, 1⟩ =
      some (.ok (some (cdata, none, r'))) := by
  have hfits : Fits [newsb (text "argo"), newsb (text "mips"), newsb (text "cat"),
      newsb (text "a"), newsb (text "b")] := ⟨by decide, by decide, by decide, by decide⟩
  obtain ⟨row, n', hentry, -⟩ := entry_ok everyHost hfits [] 1
  have hmake : makeEntry everyHost none ⟨yylex catFile, 1⟩ =
      .ok (some (row, none, ⟨fileTokens [], n'⟩)) := by
    rw [yylex_catFile, makeEntry_entry _ _ (by decide) (by decide)]
    rw [show restTokens [] = [] from rfl, List.append_nil] at hentry
    rw [hentry]
    rfl
  have hinside : makeEntry everyHost none ⟨yylex catFile, 1⟩ ≠ .error .outside := by
    rw [hmake]
    simp
  have hagrees := makeEntryChecked_agrees everyHost (fun _ => CharArray.zero _) hinside
  rw [hmake] at hagrees
  obtain ⟨answer, hanswer, hrow⟩ := hagrees.of_ok
  cases hrow with
  | some => exact ⟨_, _, hanswer⟩

theorem makeEntry_arguments_two : ∃ cdata r',
    makeEntryChecked everyHost (fun _ => CharArray.zero _) none ⟨yylex catFile, 1⟩ =
        some (.ok (some (cdata, none, r'))) ∧
      ∃ args : List Str, args.length ≤ maxNumberArgs ∧
        (∃ front tail, yylex catFile = front ++ .string cdata.conname :: .string cdata.conclass ::
            .string cdata.conprog :: (args.map .string ++ tail) ∧
          (tail = .newline :: r'.tokens ∨ tail = [] ∧ r'.tokens = [])) ∧
        cstr cdata.argsline.val = ([32] : List Byte).intercalate (args.map Subtype.val) ∧
        ∀ i < maxNumberArgs, cdata.progargs.load i = some args[i]? := by
  have hnul : (0 : Byte) ∉ catFile := by decide
  have hwhole : (⟨yylex catFile, 1⟩ : Reader).tokens <:+ yylex catFile := List.suffix_rfl
  obtain ⟨result, hresult, hargs⟩ :=
    makeEntry_arguments everyHost (fun _ => CharArray.zero _) hnul hwhole none
  obtain ⟨cdata, r', hchecked⟩ := makeEntryChecked_catFile
  exact ⟨cdata, r', hchecked, hargs cdata none r' (Option.some.inj (hresult.symm.trans hchecked))⟩

end XinuConsole.Config
