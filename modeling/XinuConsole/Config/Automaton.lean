import XinuConsole.Config.Hosts
import XinuConsole.Lib.Transducer

/-!
The reader of the configuration file, one token at a time.

`makeEntry` takes several tokens at once. Here the same reader is a machine that
takes one and remembers where in an entry it is, so that what it does with the
end of a file can be looked at from any point in the file.
-/

namespace XinuConsole.Config

open Lib

/-- The strings of an entry. -/
structure Entry where
  conname : Str
  conclass : Str
  conprog : Str
  args : List Str
  deriving DecidableEq

/-- What the reader stores in a row. -/
structure Stored where
  conname : List Byte
  conclass : List Byte
  conprog : List Byte
  progargs : List (List Byte)
  argsline : List Byte
  user : List Byte
  conpid : ℤ
  deriving DecidableEq

def stored (row : Condata) : Stored where
  conname := row.conname
  conclass := row.conclass
  conprog := row.conprog
  progargs := row.progargs
  argsline := row.argsline
  user := row.userName
  conpid := row.conpid

def Entry.stored (e : Entry) : Stored where
  conname := e.conname.val
  conclass := e.conclass.val
  conprog := e.conprog.val
  progargs := e.args.map Subtype.val
  argsline := argsline (e.args.map Subtype.val)
  user := []
  conpid := badPid

theorem Entry.stored_injective : Function.Injective Entry.stored := by
  rintro ⟨c, cl, p, as⟩ ⟨c', cl', p', as'⟩ h
  simp only [Entry.stored, Stored.mk.injEq] at h
  obtain ⟨hc, hcl, hp, has, -⟩ := h
  congr 1
  · exact Subtype.ext hc
  · exact Subtype.ext hcl
  · exact Subtype.ext hp
  · exact List.map_injective_iff.mpr Subtype.val_injective has

/-- Where the reader is: between entries, or behind some strings of one. -/
inductive Phase
  | top
  | named (conname : Str)
  | classed (conname conclass : Str)
  | args (e : Entry)
  deriving DecidableEq

/-- Where the reader is, and `defaulthost`. -/
structure Place where
  phase : Phase
  defaulthost : Option (List Byte)
  deriving DecidableEq

def Place.start : Place := ⟨.top, none⟩

/-- The host of the section that a header begins. -/
def sectionHost (tv : Str) : Option (List Byte) :=
  if tv.val.dropLast = [] then none else some tv.val.dropLast

section Reading

variable (ismyname : List Byte → Bool)

/-- An entry that is complete becomes a row in a section of this host. -/
def complete (defaulthost : Option (List Byte)) (e : Entry) : List Entry :=
  if defaulthost.all ismyname then [e] else []

def Place.step : Place → Token → Option (Place × List Entry)
  | ⟨.top, host⟩, .newline => some (⟨.top, host⟩, [])
  | ⟨.top, host⟩, .string tv =>
      match tv.val.getLast? with
      | none => none
      | some c =>
          if c = 58 then some (⟨.top, sectionHost tv⟩, []) else some (⟨.named tv, host⟩, [])
  | ⟨.named conname, host⟩, .string sb => some (⟨.classed conname sb, host⟩, [])
  | ⟨.named _, _⟩, .newline => none
  | ⟨.classed conname conclass, host⟩, .string sb =>
      if conname.val.length < maxConnectionName ∧ conclass.val.length < maxClassName then
        some (⟨.args ⟨conname, conclass, sb, []⟩, host⟩, [])
      else none
  | ⟨.classed _ _, _⟩, .newline => none
  | ⟨.args e, host⟩, .string sb =>
      if e.args.length < maxNumberArgs ∧ sb.val.length < maxArgLength then
        some (⟨.args { e with args := e.args ++ [sb] }, host⟩, [])
      else none
  | ⟨.args e, host⟩, .newline => some (⟨.top, host⟩, complete ismyname host e)

/-- The end of the file ends an entry as a newline does. -/
def Place.finish : Place → Option (List Entry)
  | ⟨.top, _⟩ => some []
  | ⟨.args e, host⟩ => some (complete ismyname host e)
  | _ => none

/-- The reader, token by token. -/
def byToken : Transducer Place Token Entry := ⟨Place.step ismyname, Place.finish ismyname⟩

abbrev entries (pl : Place) (ts : List Token) : Option (List Entry) :=
  (byToken ismyname).output pl ts

variable {ismyname} {host : Option (List Byte)}

theorem entries_top_newline (ts : List Token) :
    entries ismyname ⟨.top, host⟩ (.newline :: ts) = entries ismyname ⟨.top, host⟩ ts :=
  Transducer.output_cons_nil rfl ts

theorem entries_top_outside {tv : Str} (hnil : tv.val = []) (ts : List Token) :
    entries ismyname ⟨.top, host⟩ (.string tv :: ts) = none := by
  apply Transducer.output_stop
  show Place.step ismyname ⟨.top, host⟩ (.string tv) = none
  simp [Place.step, hnil]

theorem entries_top_header {tv : Str} (htv : tv.val.getLast? = some 58) (ts : List Token) :
    entries ismyname ⟨.top, host⟩ (.string tv :: ts) =
      entries ismyname ⟨.top, sectionHost tv⟩ ts := by
  apply Transducer.output_cons_nil
  show Place.step ismyname ⟨.top, host⟩ (.string tv) = _
  simp [Place.step, htv]

theorem entries_top_name {tv : Str} (hne : tv.val ≠ []) (htv : tv.val.getLast? ≠ some 58)
    (ts : List Token) :
    entries ismyname ⟨.top, host⟩ (.string tv :: ts) =
      entries ismyname ⟨.named tv, host⟩ ts := by
  apply Transducer.output_cons_nil
  show Place.step ismyname ⟨.top, host⟩ (.string tv) = _
  obtain ⟨c, hc⟩ : ∃ c, tv.val.getLast? = some c := ⟨_, List.getLast?_eq_some_getLast hne⟩
  have h58 : c ≠ 58 := fun h => htv (hc.trans (congrArg some h))
  simp [Place.step, hc, h58]

theorem entries_named (conname sb : Str) (ts : List Token) :
    entries ismyname ⟨.named conname, host⟩ (.string sb :: ts) =
      entries ismyname ⟨.classed conname sb, host⟩ ts :=
  Transducer.output_cons_nil rfl ts

theorem entries_named_newline (conname : Str) (ts : List Token) :
    entries ismyname ⟨.named conname, host⟩ (.newline :: ts) = none :=
  Transducer.output_stop rfl ts

theorem entries_classed_newline (conname conclass : Str) (ts : List Token) :
    entries ismyname ⟨.classed conname conclass, host⟩ (.newline :: ts) = none :=
  Transducer.output_stop rfl ts

theorem entries_classed {conname conclass : Str} (hname : conname.val.length < maxConnectionName)
    (hclass : conclass.val.length < maxClassName) (sb : Str) (ts : List Token) :
    entries ismyname ⟨.classed conname conclass, host⟩ (.string sb :: ts) =
      entries ismyname ⟨.args ⟨conname, conclass, sb, []⟩, host⟩ ts :=
  Transducer.output_cons_nil (if_pos ⟨hname, hclass⟩) ts

theorem entries_classed_long {conname conclass : Str} (h : ¬(conname.val.length < maxConnectionName ∧
    conclass.val.length < maxClassName)) (sb : Str) (ts : List Token) :
    entries ismyname ⟨.classed conname conclass, host⟩ (.string sb :: ts) = none :=
  Transducer.output_stop (if_neg h) ts

theorem entries_args {e : Entry} {sb : Str} (hroom : e.args.length < maxNumberArgs)
    (hsb : sb.val.length < maxArgLength) (ts : List Token) :
    entries ismyname ⟨.args e, host⟩ (.string sb :: ts) =
      entries ismyname ⟨.args { e with args := e.args ++ [sb] }, host⟩ ts :=
  Transducer.output_cons_nil (if_pos ⟨hroom, hsb⟩) ts

theorem entries_args_bad {e : Entry} {sb : Str}
    (h : ¬(e.args.length < maxNumberArgs ∧ sb.val.length < maxArgLength)) (ts : List Token) :
    entries ismyname ⟨.args e, host⟩ (.string sb :: ts) = none :=
  Transducer.output_stop (if_neg h) ts

theorem entries_args_newline (e : Entry) (ts : List Token) :
    entries ismyname ⟨.args e, host⟩ (.newline :: ts) =
      (entries ismyname ⟨.top, host⟩ ts).map (complete ismyname host e ++ ·) :=
  Transducer.output_cons rfl ts

/-! ### The section of an entry -/

theorem complete_of_not_mine (hmine : host.all ismyname = false) (e : Entry) :
    complete ismyname host e = [] := by
  rw [complete, hmine]
  rfl

theorem complete_of_mine (hmine : host.all ismyname = true) (e : Entry) :
    complete ismyname host e = [e] := by
  rw [complete, if_pos hmine]

/-- What comes out depends on the section only by whether it is this host's. -/
theorem entries_congr {host' : Option (List Byte)} (h : host.all ismyname = host'.all ismyname)
    (phase : Phase) (ts : List Token) :
    entries ismyname ⟨phase, host⟩ ts = entries ismyname ⟨phase, host'⟩ ts := by
  apply Transducer.output_eq_of_related
    (R := fun pl pl' => pl.phase = pl'.phase ∧
      pl.defaulthost.all ismyname = pl'.defaulthost.all ismyname)
  · rintro ⟨phase, host⟩ ⟨phase', host'⟩ ⟨hphase, hall⟩
    obtain rfl : phase = phase' := hphase
    change Place.finish ismyname _ = Place.finish ismyname _
    cases phase <;> simp_all [Place.finish, complete]
  · rintro ⟨phase, host⟩ ⟨phase', host'⟩ tok ⟨hphase, hall⟩
    obtain rfl : phase = phase' := hphase
    match phase, tok with
    | .named _, .newline | .classed _ _, .newline => exact .inl ⟨rfl, rfl⟩
    | .top, .newline => exact .inr ⟨_, _, [], rfl, rfl, rfl, hall⟩
    | .named conname, .string sb => exact .inr ⟨_, _, [], rfl, rfl, rfl, hall⟩
    | .args e, .newline =>
      have hsame : complete ismyname host e = complete ismyname host' e := by
        rw [complete, show host.all ismyname = host'.all ismyname from hall, complete]
      exact .inr ⟨_, ⟨.top, host'⟩, _, rfl, by rw [hsame]; rfl, rfl, hall⟩
    | .top, .string tv =>
      simp only [byToken, Place.step]
      cases tv.val.getLast? with
      | none => exact .inl ⟨rfl, rfl⟩
      | some c =>
          by_cases hc : c = 58
          · exact .inr ⟨_, _, [], if_pos hc, if_pos hc, rfl, rfl⟩
          · exact .inr ⟨_, _, [], if_neg hc, if_neg hc, rfl, hall⟩
    | .classed conname conclass, .string sb =>
      by_cases hfits : conname.val.length < maxConnectionName ∧ conclass.val.length < maxClassName
      · exact .inr ⟨_, _, [], if_pos hfits, if_pos hfits, rfl, hall⟩
      · exact .inl ⟨if_neg hfits, if_neg hfits⟩
    | .args e, .string sb =>
      by_cases hfits : e.args.length < maxNumberArgs ∧ sb.val.length < maxArgLength
      · exact .inr ⟨_, _, [], if_pos hfits, if_pos hfits, rfl, hall⟩
      · exact .inl ⟨if_neg hfits, if_neg hfits⟩
  · exact ⟨rfl, h⟩

/-- In a section of this host there is at least as much, and one entry more if
the reader is inside of one. -/
theorem entries_grows {host' : Option (List Byte)} (hother : host.all ismyname = false)
    (hmine : host'.all ismyname = true) {phase : Phase} {ts : List Token} {es es' : List Entry}
    (h : entries ismyname ⟨phase, host⟩ ts = some es)
    (h' : entries ismyname ⟨phase, host'⟩ ts = some es') :
    es.length + (if phase = .top then 0 else 1) ≤ es'.length := by
  induction ts generalizing phase es es' with
  | nil =>
      cases phase with
      | top => simp_all [byToken, Place.finish]
      | named | classed => exact absurd h (by simp [byToken, Place.finish])
      | args e =>
          simp only [Transducer.output_nil, byToken, Place.finish, complete_of_not_mine hother,
            complete_of_mine hmine, Option.some.injEq] at h h'
          simp [← h, ← h']
  | cons tok ts ih =>
      match phase, tok with
      | .named conname, .newline =>
        rw [entries_named_newline] at h
        exact absurd h (by simp)
      | .classed conname conclass, .newline =>
        rw [entries_classed_newline] at h
        exact absurd h (by simp)
      | .top, .newline =>
        rw [entries_top_newline] at h h'
        exact ih h h'
      | .top, .string tv =>
        by_cases hnil : tv.val = []
        · rw [entries_top_outside hnil] at h
          exact absurd h (by simp)
        by_cases hcolon : tv.val.getLast? = some 58
        · -- from here on the section is the same
          rw [entries_top_header hcolon] at h h'
          obtain rfl := Option.some.inj (h.symm.trans h')
          exact Nat.le_refl _
        · rw [entries_top_name hnil hcolon] at h h'
          exact (Nat.le_succ _).trans (ih h h')
      | .named conname, .string sb =>
        rw [entries_named] at h h'
        simpa using ih h h'
      | .classed conname conclass, .string sb =>
        by_cases hfits : conname.val.length < maxConnectionName ∧ conclass.val.length < maxClassName
        · rw [entries_classed hfits.1 hfits.2] at h h'
          simpa using ih h h'
        · rw [entries_classed_long hfits] at h
          exact absurd h (by simp)
      | .args e, .string sb =>
        by_cases hfits : e.args.length < maxNumberArgs ∧ sb.val.length < maxArgLength
        · rw [entries_args hfits.1 hfits.2] at h h'
          simpa using ih h h'
        · rw [entries_args_bad hfits] at h
          exact absurd h (by simp)
      | .args e, .newline =>
        rw [entries_args_newline] at h h'
        obtain ⟨rest, hrest, rfl⟩ := Option.map_eq_some_iff.mp h
        obtain ⟨rest', hrest', rfl⟩ := Option.map_eq_some_iff.mp h'
        have hle := ih hrest hrest'
        rw [complete_of_not_mine hother, complete_of_mine hmine]
        simpa using hle

/-! ### The same reader -/

/-- The loop over the arguments of `e` ends as reading them one by one does. -/
def ArgsAgree (ismyname : List Byte → Bool) (host : Option (List Byte)) (e : Entry)
    (ts : List Token) : Except Failure (List (List Byte) × Option Token × Reader) → Prop
  | .error _ | .ok (_, some (.string _), _) => entries ismyname ⟨.args e, host⟩ ts = none
  | .ok (args, _, r) => ∃ as : List Str, args = as.map Subtype.val ∧
      entries ismyname ⟨.args e, host⟩ ts = (entries ismyname ⟨.top, host⟩ r.tokens).map
        (complete ismyname host { e with args := e.args ++ as } ++ ·)

theorem argsAgree_ok {e : Entry} {ts : List Token} {args : List (List Byte)} {tk : Option Token}
    {r : Reader} (htk : ∀ sb, tk ≠ some (.string sb)) :
    ArgsAgree ismyname host e ts (.ok (args, tk, r)) ↔ ∃ as : List Str, args = as.map Subtype.val ∧
      entries ismyname ⟨.args e, host⟩ ts = (entries ismyname ⟨.top, host⟩ r.tokens).map
        (complete ismyname host { e with args := e.args ++ as } ++ ·) := by
  rcases tk with _ | _ | sb
  · exact Iff.rfl
  · exact Iff.rfl
  · exact absurd rfl (htk sb)

theorem progargs_agree (ts : List Token) {room : ℕ} {e : Entry}
    (hroom : e.args.length + room = maxNumberArgs) (n : ℕ) :
    ArgsAgree ismyname host e ts (progargs room (tknext ⟨ts, n⟩).1 (tknext ⟨ts, n⟩).2) := by
  induction ts generalizing room e n with
  | nil =>
      change ArgsAgree ismyname host e [] (progargs room none ⟨[], n⟩)
      rw [progargs_stop room (by simp)]
      exact ⟨[], rfl, by simp [byToken, Place.finish]⟩
  | cons tok ts ih =>
      cases tok with
      | newline =>
          change ArgsAgree ismyname host e (.newline :: ts)
            (progargs room (some .newline) ⟨ts, n + 1⟩)
          rw [progargs_stop room (by simp)]
          exact ⟨[], rfl, by rw [entries_args_newline, List.append_nil]⟩
      | string sb =>
          change ArgsAgree ismyname host e (.string sb :: ts)
            (progargs room (some (.string sb)) ⟨ts, n⟩)
          cases room with
          | zero => exact entries_args_bad (fun h => by omega) ts
          | succ room =>
              rw [progargs]
              dsimp only
              by_cases hlong : maxArgLength ≤ sb.val.length
              · rw [if_pos hlong]
                exact entries_args_bad (fun h => absurd h.2 (Nat.not_lt.mpr hlong)) ts
              · rw [if_neg hlong]
                have hentries : entries ismyname ⟨.args e, host⟩ (.string sb :: ts) = _ :=
                  entries_args (by omega) (Nat.not_le.mp hlong) ts
                have hroom' : (e.args ++ [sb]).length + room = maxNumberArgs := by
                  rw [List.length_append, List.length_singleton]
                  omega
                have hrest := ih (e := { e with args := e.args ++ [sb] }) hroom' n
                generalize progargs room (tknext ⟨ts, n⟩).1 (tknext ⟨ts, n⟩).2 = result at hrest ⊢
                rcases result with err | ⟨args, tk, r⟩
                · exact hentries.trans hrest
                by_cases htk : ∀ sb, tk ≠ some (.string sb)
                · obtain ⟨as, has, h⟩ := (argsAgree_ok htk).mp hrest
                  refine (argsAgree_ok htk).mpr ⟨sb :: as, by rw [has, List.map_cons], ?_⟩
                  rw [hentries, h, List.append_assoc, List.singleton_append]
                · simp only [not_forall, not_not] at htk
                  obtain ⟨sb', rfl⟩ := htk
                  exact hentries.trans hrest

/-- An entry is read to the same end. -/
def EntryAgrees (ismyname : List Byte → Bool) (host : Option (List Byte)) (conname : Str)
    (ts : List Token) : Except Failure (Condata × Reader) → Prop
  | .error _ => entries ismyname ⟨.named conname, host⟩ ts = none
  | .ok (cdata, r) => ∃ e : Entry, stored cdata = e.stored ∧
      entries ismyname ⟨.named conname, host⟩ ts =
        (entries ismyname ⟨.top, host⟩ r.tokens).map (complete ismyname host e ++ ·)

theorem entry_agrees (sys : System) (conname : Str) (ts : List Token) (n : ℕ) :
    EntryAgrees ismyname host conname ts (entry sys conname ⟨ts, n⟩) := by
  match ts with
  | [] | .newline :: _ | [.string _] | .string _ :: .newline :: _ => exact rfl
  | .string conclass :: .string conprog :: ts =>
    simp only [entry, matchtoken_string]
    have hread : entries ismyname ⟨.named conname, host⟩
      (.string conclass :: .string conprog :: ts) =
        entries ismyname ⟨.classed conname conclass, host⟩ (.string conprog :: ts) :=
      entries_named conname conclass _
    by_cases hname : maxConnectionName ≤ conname.val.length
    · rw [dif_pos hname]
      exact hread.trans (entries_classed_long (fun h => absurd h.1 (Nat.not_lt.mpr hname)) _ _)
    rw [dif_neg hname]
    by_cases hclass : maxClassName ≤ conclass.val.length
    · rw [dif_pos hclass]
      exact hread.trans (entries_classed_long (fun h => absurd h.2 (Nat.not_lt.mpr hclass)) _ _)
    rw [dif_neg hclass]
    rw [entries_classed (Nat.not_le.mp hname) (Nat.not_le.mp hclass)] at hread
    have hargs : ArgsAgree ismyname host ⟨conname, conclass, conprog, []⟩ ts _ :=
      progargs_agree ts (Nat.zero_add maxNumberArgs) n
    split
    · next h =>
      rw [h] at hargs
      exact hread.trans hargs
    · next h =>
      rw [h] at hargs
      exact hread.trans hargs
    · next args tk r hstop h =>
      rw [h] at hargs
      obtain ⟨as, rfl, hentries⟩ := (argsAgree_ok hstop).mp hargs
      refine ⟨⟨conname, conclass, conprog, as⟩, ?_, hread.trans hentries⟩
      simp [stored, Entry.stored, Condata.userName, freshUser_str]

theorem readEntries_entry (sys : System) {tv : Str} (hne : tv.val ≠ [])
    (htv : tv.val.getLast? ≠ some 58) (ts : List Token) (n : ℕ) :
    readEntries sys host ⟨.string tv :: ts, n⟩ =
      match entry sys tv ⟨ts, n⟩ with
      | .error e => .error e
      | .ok (cdata, r) =>
          if host.all sys.ismyname then (readEntries sys host r).map (cdata :: ·)
          else readEntries sys host r := by
  have hmake := makeEntry_entry sys host hne htv ts n
  cases hentry : entry sys tv ⟨ts, n⟩ with
  | error e =>
      rw [hentry] at hmake
      rw [readEntries_eq, hmake]
  | ok next =>
      rw [hentry] at hmake
      dsimp only at hmake ⊢
      by_cases hmine : host.all sys.ismyname = true
      · rw [if_pos hmine] at hmake ⊢
        rw [readEntries_eq, hmake]
        dsimp only
        cases readEntries sys host next.2 <;> rfl
      · rw [if_neg hmine] at hmake ⊢
        exact readEntries_congr hmake

/-- The rows that the reader returns are the entries that come out token by
token, and it fails where that stops. -/
theorem readEntries_entries (sys : System) (host : Option (List Byte)) (ts : List Token) (n : ℕ) :
    (readEntries sys host ⟨ts, n⟩).toOption.map (List.map stored) =
      (entries sys.ismyname ⟨.top, host⟩ ts).map (List.map Entry.stored) := by
  induction hlen : ts.length using Nat.strong_induction_on generalizing host ts n with
  | h len ih =>
      match ts with
      | [] =>
        rw [readEntries_eq, makeEntry_eof]
        rfl
      | .newline :: ts =>
        rw [readEntries_congr (makeEntry_newline sys host ts n), entries_top_newline]
        exact ih ts.length (hlen ▸ Nat.lt_succ_self _) host ts (n + 1) rfl
      | .string tv :: ts =>
        by_cases hnil : tv.val = []
        · rw [readEntries_eq, makeEntry_outside sys host hnil, entries_top_outside hnil]
          rfl
        by_cases hcolon : tv.val.getLast? = some 58
        · rw [readEntries_congr (makeEntry_colon sys host hcolon ts n), entries_top_header hcolon]
          exact ih ts.length (hlen ▸ Nat.lt_succ_self _) _ ts n rfl
        rw [readEntries_entry sys hnil hcolon, entries_top_name hnil hcolon]
        have hagrees : EntryAgrees sys.ismyname host tv ts _ := entry_agrees sys tv ts n
        cases hentry : entry sys tv ⟨ts, n⟩ with
        | error e =>
            rw [hentry] at hagrees
            rw [show entries sys.ismyname ⟨.named tv, host⟩ ts = none from hagrees]
            rfl
        | ok next =>
            obtain ⟨cdata, r⟩ := next
            rw [hentry] at hagrees
            obtain ⟨e, hstored, hentries⟩ := hagrees
            have hshorter : r.tokens.length < len :=
              hlen ▸ Nat.lt_succ_of_le (entry_length hentry)
            have hrest := ih r.tokens.length hshorter host r.tokens r.linecnt rfl
            rw [hentries]
            dsimp only
            by_cases hmine : host.all sys.ismyname = true
            · rw [if_pos hmine, complete, if_pos hmine]
              have hcons := congrArg (Option.map (e.stored :: ·)) hrest
              simp only [Option.map_map, Function.comp_def] at hcons ⊢
              cases hread : readEntries sys host r with
              | error err => simpa [hread, Except.toOption, Except.map] using hcons
              | ok rows => simpa [hread, hstored, Except.toOption, Except.map] using hcons
            · rw [if_neg hmine, complete, if_neg hmine, hrest]
              simp

end Reading

/-- The tables that are read from a file. -/
theorem readConfigurationFile_entries (sys : System) (f : List Byte) (table : List Stored) :
    (∃ rows, readConfigurationFile sys (some f) = .ok rows ∧ rows.map stored = table) ↔
      ∃ es, entries sys.ismyname .start (yylex f) = some es ∧ es.map Entry.stored = table ∧
        es.length ≤ maxConnections := by
  have hread := readEntries_entries sys none (yylex f) 1
  unfold readConfigurationFile
  dsimp only
  cases hrows : readEntries sys none ⟨yylex f, 1⟩ with
  | error e =>
      rw [hrows] at hread
      have hnone : entries sys.ismyname .start (yylex f) = none :=
        Option.map_eq_none_iff.mp hread.symm
      simp [hnone]
  | ok rows =>
      rw [hrows] at hread
      obtain ⟨es, hes, hstored⟩ := Option.map_eq_some_iff.mp hread.symm
      have hlen : es.length = rows.length := by simpa using congrArg List.length hstored
      rw [show entries sys.ismyname .start (yylex f) = some es from hes]
      dsimp only
      split
      · next hmany =>
          constructor
          · rintro ⟨_, h, -⟩
            exact absurd h (by simp)
          · rintro ⟨_, h, -, hfew⟩
            obtain rfl := Option.some.inj h
            exact absurd hmany (Nat.not_lt.mpr (hlen ▸ hfew))
      · next hfew =>
          constructor
          · rintro ⟨_, h, rfl⟩
            obtain rfl := Except.ok.inj h
            exact ⟨es, rfl, hstored, hlen ▸ Nat.not_lt.mp hfew⟩
          · rintro ⟨_, h, rfl, -⟩
            obtain rfl := Option.some.inj h
            exact ⟨rows, rfl, hstored.symm⟩

end XinuConsole.Config
