import XinuConsole.ServerSearch
import XinuConsole.Lib.Slots

/-!
The pass of `getTCPConnection` over one reply.

`pass` is the body of the loop over the replies, with the array `indeces` in
memory and with a call of `reqTCPConnection` as one step. The rows of the array
are tried once around from a random one, until one of them is granted.
-/

namespace XinuConsole.RetryLoop

open Lib ConnectUtils Consoled MakeConnection Reservation ServerSearch

/-- The calls of a pass: of `reqTCPConnection` for a row, with the two buffers of
the caller, and those of `getTCPConnection` itself. -/
inductive PassOp
  | reqTCPConnection (row : ℕ) (connection : Option (CharArray maxConnectionName))
      (cls : Option (CharArray maxClassName))
  | other (op : Op)

abbrev PassRes : PassOp → Type
  | .reqTCPConnection .. => ℤ × Option (CharArray maxConnectionName) × Option (CharArray maxClassName)
  | .other op => Res op

abbrev Pass := Prog PassOp PassRes

abbrev PassHistory := List (Answered PassOp PassRes)

def Pass.undefined {α : Type} : Pass α := .call (.other .undefined) Empty.elim

/-! ### The array -/

/-- `indeces[ free ] = j; free++`. -/
def push {n : ℕ} (s : Slots ℕ n × ℕ) (j : ℕ) : Option (Slots ℕ n × ℕ) :=
  (s.1.store s.2 j).map fun indeces => (indeces, s.2 + 1)

/-- The body of the loop that fills the array: two tests, one store at most. -/
def collectRow {n : ℕ} (steal : Bool) (stat : StatusreplyData) (j : ℕ) (s : Slots ℕ n × ℕ) :
    Option (Slots ℕ n × ℕ) :=
  (if steal = true ∧ stat.active ≠ 0 then
    match getMinutes stat.contime with
    | none => none
    | some minutes => if minutes ≥ reserveTime then push s j else some s
  else some s).bind fun s => if stat.active = 0 then push s j else some s

/-- The array and the counter `free`, from the row `j` on with `k` rows to go.
Nothing comes of a read behind the details of the reply, of a time that
`sscanf` does not set, and of a store outside the array. -/
def collect {n : ℕ} (steal : Bool) (reply : Reply) : ℕ → ℕ → Slots ℕ n × ℕ → Option (Slots ℕ n × ℕ)
  | 0, _, s => some s
  | k + 1, j, s =>
      if maxConnections ≤ j then none
      else (collectRow steal (reply.stat j) j s).bind (collect steal reply k (j + 1))

/-! ### The loop over the array -/

/-- `copyOut` in a pass. -/
def copyOut {n : ℕ} (dst : Option (CharArray n)) (src : List Byte) : Pass (Option (CharArray n)) :=
  Prog.interp (fun op => Prog.perform (PassOp.other op)) (MakeConnection.copyOut dst src)

/-- The loop over the array, with `k` rounds to go. -/
def tryLoop {n : ℕ} (reply : Reply) (indeces : Slots ℕ n) (free : ℕ) :
    ℕ → ℕ → Buffers → Pass (ℤ × Buffers)
  | 0, _, b => pure (-1, b)
  | k + 1, randgrab, b =>
      match indeces.load randgrab with
      | none => Pass.undefined
      | some row => do
        let (fd, connection, cls) ← Prog.perform (PassOp.reqTCPConnection row b.connection b.cls)
        if 0 ≤ fd then do
          let host ← copyOut b.host (cstr reply.hostname.val)
          pure (fd, ⟨connection, cls, host⟩)
        else tryLoop reply indeces free k ((randgrab + 1) % free) ⟨connection, cls, b.host⟩

/-- The body of the loop of `getTCPConnection` over the replies. -/
def pass (steal : Bool) (reply : Reply) (b : Buffers) : Pass (ℤ × Buffers) :=
  match collect steal reply (consumed reply) 0 (Slots.fresh ℕ (consumed reply), 0) with
  | none => Pass.undefined
  | some (indeces, free) => do
    let random ← Prog.perform (PassOp.other Op.rand)
    if free = 0 then Pass.undefined else tryLoop reply indeces free free (random % free) b

/-- What the calls of a pass are carried out by. -/
def handler (steal : Bool) (reply : Reply) : (op : PassOp) → Client (PassRes op)
  | .reqTCPConnection row connection cls =>
      reqTCPConnection connection cls (cstr reply.hostname.val) steal (reply.stat row)
  | .other op => Prog.perform op

/-! ### The statement -/

/-- The array holds the candidate rows of the reply in their order. -/
structure Collects (steal : Bool) (reply : Reply) (rows : List ℕ) : Prop where
  sorted : rows.Pairwise (· < ·)
  mem_iff : ∀ j, j ∈ rows ↔ (j : ℤ) < atoi reply.numconnections.val ∧ Candidate steal (reply.stat j)
  array : ∃ indeces : Slots ℕ (consumed reply),
    collect steal reply (consumed reply) 0 (Slots.fresh ℕ (consumed reply), 0) =
      some (indeces, rows.length) ∧ ∀ i < rows.length, indeces.load i = rows[i]?

/-- The rows that `reqTCPConnection` was called for, with what it returned. -/
def tried (h : PassHistory) : List (ℕ × ℤ) :=
  h.filterMap fun
    | ⟨.reqTCPConnection row _ _, r⟩ => some (row, r.1)
    | ⟨.other _, _⟩ => none

/-- Rows tried in cyclic order from the position `start` on, each once at most, up
to the first that is granted or until all have been tried. -/
structure Walk (rows : List ℕ) (start : ℕ) (ts : List (ℕ × ℤ)) (fd : ℤ) : Prop where
  cyclic : ts.map Prod.fst <+: rows.rotate start
  once : (ts.map Prod.fst).Nodup
  refused : ∀ t ∈ ts.dropLast, t.2 < 0
  success : 0 ≤ fd → ∃ row, ts.getLast? = some (row, fd)
  failure : fd < 0 → ts.map Prod.fst = rows.rotate start ∧ ∀ t ∈ ts, t.2 < 0

/-- No call of a pass is undefined. -/
def Defined (_ : PassHistory) (op : PassOp) : Prop := op ≠ .other .undefined

/-- The pass fills the array with the candidates and tries them once around,
whatever `rand` and `reqTCPConnection` return. -/
def TriesEachOnce (steal : Bool) (reply : Reply) (b : Buffers) : Prop :=
  ∃ rows, Collects steal reply rows ∧
    Prog.wp Defined (pass steal reply b)
      (fun h r => ∃ random : ℕ, h.head? = some ⟨.other .rand, random⟩ ∧
        Walk rows (random % rows.length) (tried h) r.1) []

/-! ### The array holds what the list has -/

/-- What would follow an undefined call does not count. -/
theorem call_undefined {α : Type} (k : Empty → Client α) :
    (.call Op.undefined k : Client α) = undefined :=
  congrArg (Prog.call Op.undefined) (funext fun r => r.elim)

theorem undefined_bind {α β : Type} (f : α → Client β) : undefined >>= f = undefined :=
  call_undefined _

theorem push_of_lt {n : ℕ} (s : Slots ℕ n × ℕ) (hroom : s.2 < n) (j : ℕ) :
    ∃ indeces, push s j = some (indeces, s.2 + 1) ∧ indeces.load s.2 = some j ∧
      ∀ i < s.2, indeces.load i = s.1.load i := by
  obtain ⟨indeces, hstore, hload, hother⟩ := s.1.store_of_lt hroom j
  refine ⟨indeces, ?_, hload, fun i hi => hother i hi.ne⟩
  rw [push, hstore]
  rfl

/-- The two tests store a row that is a candidate, once. -/
theorem collectRow_eq {n : ℕ} (steal : Bool) (stat : StatusreplyData) (j : ℕ) (s : Slots ℕ n × ℕ) :
    (collectRow steal stat j s = none ∧ candidate steal stat = undefined ∧
        steal = true ∧ stat.active ≠ 0 ∧ getMinutes stat.contime = none) ∨
      ∃ found, candidate steal stat = pure found ∧
        collectRow steal stat j s = if found then push s j else some s := by
  unfold collectRow candidate
  split
  · next hheld =>
    cases hminutes : getMinutes stat.contime with
    | none => exact .inl ⟨rfl, rfl, hheld.1, hheld.2, rfl⟩
    | some minutes =>
        refine .inr ⟨decide (minutes ≥ reserveTime), rfl, ?_⟩
        dsimp only
        by_cases hlong : minutes ≥ reserveTime
        · rw [if_pos hlong, if_pos (decide_eq_true hlong)]
          cases push s j with
          | none => rfl
          | some s' => exact if_neg hheld.2
        · rw [if_neg hlong, if_neg (by simpa using hlong)]
          exact if_neg hheld.2
  · refine .inr ⟨decide (stat.active = 0), rfl, ?_⟩
    by_cases hfree : stat.active = 0
    · rw [if_pos (decide_eq_true hfree)]
      exact if_pos hfree
    · rw [if_neg (by simpa using hfree)]
      exact if_neg hfree

/-- The stores end inside the array, one behind the other. -/
theorem collect_eq {n : ℕ} (steal : Bool) (reply : Reply) (k j : ℕ) (s : Slots ℕ n × ℕ)
    (hn : j + k ≤ n) (hs : s.2 ≤ j) :
    match collect steal reply k j s with
    | none => indeces steal reply k j = undefined
    | some (array, free) => ∃ rows, indeces steal reply k j = pure rows ∧
        free = s.2 + rows.length ∧ (∀ i < rows.length, array.load (s.2 + i) = rows[i]?) ∧
        ∀ i < s.2, array.load i = s.1.load i := by
  induction k generalizing j s with
  | zero => exact ⟨[], rfl, rfl, fun i hi => absurd hi (by simp), fun _ _ => rfl⟩
  | succ k ih =>
      rw [collect, indeces]
      by_cases hbehind : maxConnections ≤ j
      · rw [if_pos hbehind, if_pos hbehind]
      rw [if_neg hbehind, if_neg hbehind]
      rcases collectRow_eq steal (reply.stat j) j s with ⟨hrow, hcand, -⟩ | ⟨found, hcand, hrow⟩
      · rw [hrow, hcand]
        exact undefined_bind _
      rw [hrow, hcand]
      cases found with
      | true =>
          obtain ⟨array, hpush, hload, hkept⟩ := push_of_lt s (by omega) j
          have hrest := ih (j + 1) (array, s.2 + 1) (by omega) (by simpa using hs)
          rw [if_pos rfl, hpush, Option.bind_some]
          generalize collect steal reply k (j + 1) (array, s.2 + 1) = result at hrest ⊢
          cases result with
          | none =>
              show indeces steal reply k (j + 1) >>= _ = _
              rw [hrest]
              exact undefined_bind _
          | some s' =>
              obtain ⟨rows, hrows, hfree, harray, hbelow⟩ := hrest
              refine ⟨j :: rows, ?_, ?_, fun i hi => ?_, fun i hi => ?_⟩
              · show indeces steal reply k (j + 1) >>= _ = _
                rw [hrows]
                rfl
              · rw [hfree, List.length_cons]
                omega
              · cases i with
                | zero => exact (hbelow s.2 (Nat.lt_succ_self _)).trans hload
                | succ i =>
                    rw [show s.2 + (i + 1) = s.2 + 1 + i by omega]
                    exact harray i (by simpa using hi)
              · exact (hbelow i (by omega)).trans (hkept i hi)
      | false =>
          have hrest := ih (j + 1) s (by omega) (by omega)
          rw [if_neg (by simp), Option.bind_some]
          generalize collect steal reply k (j + 1) s = result at hrest ⊢
          cases result with
          | none =>
              show indeces steal reply k (j + 1) >>= _ = _
              rw [hrest]
              exact undefined_bind _
          | some s' =>
              obtain ⟨rows, hrows, hwhole⟩ := hrest
              refine ⟨rows, ?_, hwhole⟩
              show indeces steal reply k (j + 1) >>= _ = _
              rw [hrows]
              rfl

/-! ### The pass is the one of `getTCPConnection` -/

theorem interp_undefined {α : Type} (steal : Bool) (reply : Reply) :
    Prog.interp (handler steal reply) (Pass.undefined : Pass α) = undefined :=
  call_undefined _

theorem interp_copyOut {n : ℕ} (steal : Bool) (reply : Reply) (dst : Option (CharArray n))
    (src : List Byte) :
    Prog.interp (handler steal reply) (copyOut dst src) = MakeConnection.copyOut dst src := by
  unfold copyOut MakeConnection.copyOut
  split
  · rfl
  · split
    · rfl
    · exact call_undefined _

theorem interp_tryLoop {n : ℕ} (steal : Bool) (reply : Reply) {array : Slots ℕ n} {rows : List ℕ}
    (harray : ∀ i < rows.length, array.load i = rows[i]?) (k : ℕ) {randgrab : ℕ}
    (hgrab : randgrab < rows.length) (b : Buffers) :
    Prog.interp (handler steal reply) (tryLoop reply array rows.length k randgrab b) =
      tryRows steal reply rows k randgrab b := by
  induction k generalizing randgrab b with
  | zero => rfl
  | succ k ih =>
      have hload : array.load randgrab = some (rows.getD randgrab 0) := by
        rw [harray randgrab hgrab, List.getD_eq_getElem _ _ hgrab, List.getElem?_eq_getElem hgrab]
      rw [tryLoop, tryRows, hload]
      dsimp only
      rw [Prog.interp_bind, Prog.interp_perform]
      refine congrArg _ (funext fun r => ?_)
      obtain ⟨fd, connection, cls⟩ := r
      dsimp only
      split
      · rw [Prog.interp_bind, interp_copyOut]
        rfl
      · exact ih (Nat.mod_lt _ (Nat.zero_lt_of_lt hgrab)) _

/-- Each round of `getTCPConnection` is a pass over a reply. -/
theorem getTCPConnection_pass (steal : Bool) (reply : Reply) (replies : List Reply) (b : Buffers) :
    getTCPConnection steal (reply :: replies) b =
      Prog.interp (handler steal reply) (pass steal reply b) >>= fun r =>
        if 0 ≤ r.1 then pure r else getTCPConnection steal replies r.2 := by
  have hcollect := collect_eq steal reply (consumed reply) 0 (Slots.fresh ℕ (consumed reply), 0)
    (Nat.zero_add _).le le_rfl
  rw [pass]
  generalize collect steal reply (consumed reply) 0 _ = result at hcollect ⊢
  cases result with
  | none =>
      rw [getTCPConnection]
      show indeces steal reply (consumed reply) 0 >>= _ = _
      rw [hcollect, undefined_bind, interp_undefined, undefined_bind]
  | some s =>
      obtain ⟨rows, hrows, hfree, harray, -⟩ := hcollect
      obtain ⟨array, free⟩ := s
      obtain rfl : free = rows.length := hfree.trans (Nat.zero_add _)
      simp only [Nat.zero_add] at harray
      rw [getTCPConnection_cons hrows]
      dsimp only
      rw [Prog.interp_bind, Prog.interp_perform]
      show rand >>= _ = (rand.bind _).bind _
      rw [Prog.bind_bind]
      refine congrArg _ (funext fun random => ?_)
      by_cases hnone : rows = []
      · rw [if_pos hnone, if_pos (List.length_eq_zero_iff.mpr hnone), interp_undefined]
        exact (undefined_bind _).symm
      · have hpos := List.length_pos_of_ne_nil hnone
        rw [if_neg hnone, if_neg hpos.ne', interp_tryLoop steal reply harray _ (Nat.mod_lt _ hpos)]
        rfl

/-! ### Once around -/

@[simp] theorem tried_append (h h' : PassHistory) : tried (h ++ h') = tried h ++ tried h' :=
  List.filterMap_append ..

@[simp] theorem tried_asked (row : ℕ) (connection : Option (CharArray maxConnectionName))
    (cls : Option (CharArray maxClassName)) (r : PassRes (.reqTCPConnection row connection cls)) :
    tried [⟨.reqTCPConnection row connection cls, r⟩] = [(row, r.1)] := rfl

theorem wp_copyOut {n : ℕ} {dst : Option (CharArray n)} {src : List Byte}
    (hfit : (cstr src).length < n) {post : PassHistory → Option (CharArray n) → Prop}
    {h : PassHistory} (hpost : ∀ dst', post h dst') : Prog.wp Defined (copyOut dst src) post h := by
  cases dst with
  | none => exact hpost none
  | some a =>
      rw [copyOut, MakeConnection.copyOut, if_pos hfit]
      exact hpost _

theorem rotate_getElem {rows : List ℕ} {start i : ℕ} (hi : i < rows.length) :
    (rows.rotate start)[i]? = rows[(start + i) % rows.length]? := by
  rw [List.getElem?_rotate hi, Nat.add_comm]

/-- One more row in cyclic order. -/
theorem take_snoc {rows : List ℕ} {start i row : ℕ} (hi : i < rows.length)
    (hrow : rows[(start + i) % rows.length]? = some row) :
    (rows.rotate start).take i ++ [row] = (rows.rotate start).take (i + 1) := by
  rw [List.take_add_one, rotate_getElem hi, hrow]
  rfl

/-- After `i` refusals the loop stands at the row that is `i` behind the first. -/
theorem tryLoop_walk {n : ℕ} {reply : Reply} (hhost : (cstr reply.hostname.val).length < maxHostName)
    {array : Slots ℕ n} {rows : List ℕ} (harray : ∀ i < rows.length, array.load i = rows[i]?)
    (hnodup : rows.Nodup) (start k i : ℕ) (hk : i + k = rows.length) (b : Buffers)
    {h : PassHistory} (htried : (tried h).map Prod.fst = (rows.rotate start).take i)
    (hrefused : ∀ t ∈ tried h, t.2 < 0) :
    Prog.wp Defined (tryLoop reply array rows.length k ((start + i) % rows.length) b)
      (fun h' r => Walk rows start (tried h') r.1) h := by
  have hrotate : (rows.rotate start).Nodup := List.nodup_rotate.mpr hnodup
  induction k generalizing i b h with
  | zero =>
      have hall : (tried h).map Prod.fst = rows.rotate start := by
        rw [htried, List.take_of_length_le (by rw [List.length_rotate]; omega)]
      refine ⟨hall ▸ List.prefix_rfl, hall ▸ hrotate, fun t ht => ?_, fun hfd => ?_, fun _ => ?_⟩
      · exact hrefused t (List.dropLast_subset _ ht)
      · exact absurd hfd (by norm_num)
      · exact ⟨hall, hrefused⟩
  | succ k ih =>
      have hi : i < rows.length := by omega
      have hgrab : (start + i) % rows.length < rows.length := Nat.mod_lt _ (by omega)
      have hrow := List.getElem?_eq_getElem hgrab
      rw [tryLoop, harray _ hgrab, hrow]
      dsimp only
      rw [Prog.wp_bind, Prog.wp_perform]
      refine ⟨by simp [Defined], fun r => ?_⟩
      obtain ⟨fd, connection, cls⟩ := r
      have hasked : ((tried h) ++ [(rows[(start + i) % rows.length], fd)]).map Prod.fst =
          (rows.rotate start).take (i + 1) := by
        rw [List.map_append, htried]
        exact take_snoc hi hrow
      dsimp only
      split
      · next hfd =>
          rw [Prog.wp_bind]
          refine wp_copyOut (by rwa [cstr_cstr]) fun host => ?_
          rw [Prog.wp_pure, tried_append, tried_asked]
          refine ⟨?_, ?_, fun t ht => ?_, fun _ => ⟨_, List.getLast?_concat⟩, fun hneg => ?_⟩
          · rw [hasked]
            exact List.take_prefix ..
          · rw [hasked]
            exact hrotate.sublist (List.take_sublist ..)
          · rw [List.dropLast_concat] at ht
            exact hrefused t ht
          · exact absurd hfd (not_le.mpr hneg)
      · next hfd =>
          have hnext : ((start + i) % rows.length + 1) % rows.length =
              (start + (i + 1)) % rows.length := by
            rw [Nat.mod_add_mod, Nat.add_assoc]
          rw [hnext]
          refine ih (i + 1) (by omega) _ ?_ fun t ht => ?_
          · rw [tried_append, tried_asked]
            exact hasked
          · rw [tried_append, tried_asked] at ht
            rcases List.mem_append.mp ht with ht | ht
            · exact hrefused t ht
            · obtain rfl := List.mem_singleton.mp ht
              exact lt_of_not_ge hfd

/-! ### What is read -/

theorem getMinutes_of_collectRow {n : ℕ} {steal : Bool} {stat : StatusreplyData} {j : ℕ}
    {s s' : Slots ℕ n × ℕ} (h : collectRow steal stat j s = some s') (hsteal : steal = true)
    (hheld : stat.active ≠ 0) : ∃ minutes, getMinutes stat.contime = some minutes := by
  cases hminutes : getMinutes stat.contime with
  | some minutes => exact ⟨minutes, rfl⟩
  | none =>
      rw [collectRow, if_pos ⟨hsteal, hheld⟩, hminutes] at h
      exact absurd h (by simp)

/-- The array is filled only if all rows can be read. -/
theorem read_of_collect {n : ℕ} {steal : Bool} {reply : Reply} {k j : ℕ} {s s' : Slots ℕ n × ℕ}
    (h : collect steal reply k j s = some s') (i : ℕ) (hi : j ≤ i) (hlt : i < j + k) :
    i < maxConnections ∧ (steal = true → (reply.stat i).active ≠ 0 →
      ∃ minutes, getMinutes (reply.stat i).contime = some minutes) := by
  induction k generalizing j s with
  | zero => exact absurd hlt (by omega)
  | succ k ih =>
      rw [collect] at h
      split at h
      · exact absurd h (by simp)
      · next hinside =>
        obtain ⟨s₁, hrow, hrest⟩ := Option.bind_eq_some_iff.mp h
        rcases hi.eq_or_lt with rfl | hbehind
        · exact ⟨Nat.lt_of_not_le hinside, getMinutes_of_collectRow hrow⟩
        · exact ih hrest hbehind (by omega)

theorem natCast_lt_consumed {reply : Reply} {j : ℕ} :
    (j : ℤ) < atoi reply.numconnections.val ↔ j < consumed reply := by
  unfold consumed
  omega

theorem readable_of_collects {steal : Bool} {reply : Reply} {rows : List ℕ}
    (h : Collects steal reply rows) : Readable steal reply := by
  obtain ⟨array, hcollect, -⟩ := h.array
  constructor
  · by_contra hmany
    have hlast := read_of_collect hcollect (consumed reply - 1) (Nat.zero_le _)
    have hcount : (consumed reply : ℤ) = atoi reply.numconnections.val := by
      unfold consumed
      simp only [maxConnections] at hmany
      omega
    have := (hlast (by simp only [maxConnections] at hmany; omega)).1
    omega
  · intro hsteal j hj
    exact (read_of_collect hcollect j (Nat.zero_le _)
      (by rw [Nat.zero_add]; exact natCast_lt_consumed.mp hj)).2 hsteal

theorem exists_collects {steal : Bool} {reply : Reply} (h : Readable steal reply) :
    ∃ rows, Collects steal reply rows := by
  obtain ⟨rows, hrows, hsorted, hmem⟩ := h.indeces_eq
  refine ⟨rows, hsorted, hmem, ?_⟩
  have hcollect := collect_eq steal reply (consumed reply) 0 (Slots.fresh ℕ (consumed reply), 0)
    (Nat.zero_add _).le le_rfl
  generalize collect steal reply (consumed reply) 0 _ = result at hcollect ⊢
  cases result with
  | none => exact absurd (hcollect.symm.trans hrows) (by simp [undefined, pure])
  | some s =>
      obtain ⟨rows', hrows', hfree, harray, -⟩ := hcollect
      obtain rfl : rows' = rows := by
        have hsame := hrows'.symm.trans hrows
        injection hsame
      obtain ⟨array, free⟩ := s
      obtain rfl : free = rows'.length := hfree.trans (Nat.zero_add _)
      simp only [Nat.zero_add] at harray
      exact ⟨array, rfl, harray⟩

/-- **The retry loop.** For a decoded reply with a candidate row, `indeces` gets
exactly the candidates in their order, inside the array, and they are tried once
around from a random one, up to the first that is granted, exactly if the rows
and the times that this takes can be read. -/
theorem triesEachOnce_iff {stack : Mem} {d : List Byte} {prior reply : Reply}
    (hret : (recvfromReply stack (some d) prior).ret ≠ -1)
    (hreply : (recvfromReply stack (some d) prior).reply = reply) {steal : Bool}
    (hoffers : Offers steal reply) (b : Buffers) :
    TriesEachOnce steal reply b ↔ Readable steal reply := by
  constructor
  · rintro ⟨rows, hrows, -⟩
    exact readable_of_collects hrows
  · intro hread
    have hhost : (cstr reply.hostname.val).length < maxHostName := hreply ▸ recvfromReply_hostname hret
    obtain ⟨rows, hrows⟩ := exists_collects hread
    refine ⟨rows, hrows, ?_⟩
    obtain ⟨array, hcollect, harray⟩ := hrows.array
    have hpos : 0 < rows.length := by
      obtain ⟨j, hj⟩ := hoffers
      exact List.length_pos_of_mem ((hrows.mem_iff j).mpr hj)
    rw [pass, hcollect]
    dsimp only
    rw [Prog.wp_bind, Prog.wp_perform]
    refine ⟨by simp [Defined], fun random => ?_⟩
    rw [if_neg hpos.ne']
    have hnodup : rows.Nodup := hrows.sorted.imp fun h => h.ne
    have hwalk := tryLoop_walk hhost harray hnodup (random % rows.length) rows.length 0
      (Nat.zero_add _) b (h := [⟨.other .rand, random⟩]) rfl (fun t ht => absurd ht List.not_mem_nil)
    rw [Nat.add_zero, Nat.mod_mod] at hwalk
    refine Prog.wp_mono (fun h r hprefix hw => ⟨random, ?_, hw⟩) hwalk
    obtain ⟨t, rfl⟩ := hprefix
    rfl

/-- The reply of a daemon with one free row. -/
def oneRow : Listing := ⟨zeroReply, CharArray.zero _, [argo], statusAll, 0⟩

theorem triesEachOnce_argo : ∃ reply, Decodes oneRow reply ∧
    TriesEachOnce false reply emptyBuffers ∧ TriesEachOnce true reply emptyBuffers := by
  obtain ⟨reply, hd⟩ := exists_decodes oneRow (by decide) (elapsedInRange_argo 0)
  obtain ⟨hcount, hstat⟩ := rows_of_decodes hd (by decide)
  have hone : matching [argo] statusAll = [argo] := by decide
  simp only [oneRow, hone] at hcount hstat
  have hactive : (reply.stat 0).active = 0 := congrArg _ (hstat 0 (by decide) (by decide))
  have hoffers : ∀ steal, Offers steal reply := fun steal =>
    ⟨0, by rw [hcount]; decide, .inl hactive⟩
  have hread : ∀ steal, Readable steal reply := by
    refine fun steal => ⟨by rw [hcount]; decide, fun _ j hj hheld => ?_⟩
    obtain rfl : j = 0 := by
      rw [hcount] at hj
      simpa using hj
    exact absurd hactive hheld
  refine ⟨reply, hd, ?_⟩
  obtain ⟨stack, prior, hret, hreply⟩ := hd
  exact ⟨(triesEachOnce_iff hret hreply (hoffers _) _).mpr (hread _),
    (triesEachOnce_iff hret hreply (hoffers _) _).mpr (hread _)⟩

/-! ### A row that was not decoded -/

/-- The reply of a daemon with five free rows. -/
def fiveRows : Listing := ⟨zeroReply, CharArray.zero _,
  [argo, brig, entry "caravel", entry "dinghy", entry "elver"], statusAll, 0⟩

/-- A reply as `xmalloc` may return it. -/
def usedReply : Reply := { zeroReply with details := fun _ => 1 }

/-- What a client makes of `fiveRows`. -/
def fiveReply : Received := recvfromReply (fun _ => 0) (some fiveRows.dgram) usedReply

/-- The decoder leaves alone what is behind the records it fills. -/
theorem received_listing (l : Listing) (hsize : l.config.length ≤ maxConnections)
    (he : ElapsedInRange l.config l.now) (hsome : 0 < (matching l.config l.req).length)
    (stack : Mem) (prior : Reply) :
    (recvfromReply stack (some l.dgram) prior).ret = sizeofReply ∧
      ∀ k, sizeofStatusreplyData * min (matching l.config l.req).length maxNConnections ≤ k →
        (recvfromReply stack (some l.dgram) prior).reply.details k = prior.details k := by
  obtain ⟨hret, -, -, -, hkept⟩ := recvfromReply_status l.config l.req l.hostname.val l.now hsize he
    l.junk prior stack
  exact ⟨hret, hkept hsome⟩

/-- No time is read from memory without digits. -/
theorem getMinutes_of_not_digit {m : Mem} {off n : ℕ} (h : m off = 1) :
    getMinutes (cstr (m.read off n)) = none := by
  cases n with
  | zero => rfl
  | succ n =>
      have hread : m.read off (n + 1) = 1 :: (List.range n).map fun k => m (off + (k + 1)) := by
        rw [Mem.read, List.range_succ_eq_map, List.map_cons, Nat.add_zero, h, List.map_map]
        rfl
      rw [hread, cstr_cons_of_ne (by decide)]
      rfl

/-- Such memory reads as a held row without a time. -/
theorem stat_of_ones {reply : Reply} {j : ℕ}
    (h : ∀ k, sizeofStatusreplyData * j ≤ k → reply.details k = 1) :
    (reply.stat j).active ≠ 0 ∧ getMinutes (reply.stat j).contime = none := by
  constructor
  · show reply.details (sizeofStatusreplyData * j + offActive) ≠ 0
    rw [h _ (Nat.le_add_right _ _)]
    decide
  · exact getMinutes_of_not_digit (h _ (Nat.le_add_right _ _))

theorem rowRecord_free {row : Condata} (h : row.conpid = badPid) (now : ℤ) :
    (rowRecord now row).active = 0 :=
  if_pos h

/-- Nothing was stored to the fifth record, which has no time in it. -/
theorem fiveRows_untried : fiveReply.ret ≠ -1 ∧ Offers true fiveReply.reply ∧
    ¬TriesEachOnce true fiveReply.reply emptyBuffers := by
  have hfree : ElapsedInRange fiveRows.config fiveRows.now := by
    intro row hrow hp
    simp [fiveRows, argo, brig, entry] at hrow
    rcases hrow with rfl | rfl | rfl | rfl | rfl <;> simp at hp
  have hall : matching fiveRows.config fiveRows.req = fiveRows.config :=
    List.filter_eq_self.mpr fun _ _ => rfl
  obtain ⟨hsize, hkept⟩ := received_listing fiveRows (by decide) hfree (by rw [hall]; decide)
    (fun _ => 0) usedReply
  have hret : fiveReply.ret ≠ -1 := hsize.trans_ne (by decide)
  have hd : Decodes fiveRows fiveReply.reply := ⟨_, _, hret, rfl⟩
  obtain ⟨hcount, hstat⟩ := rows_of_decodes hd (by decide)
  simp only [hall] at hcount hkept hstat
  have hbehind : ∀ k, sizeofStatusreplyData * 4 ≤ k → fiveReply.reply.details k = 1 := by
    intro k hk
    have hfar : sizeofStatusreplyData * min fiveRows.config.length maxNConnections ≤ k :=
      le_trans (by decide) hk
    rw [fiveReply, hkept k hfar]
    rfl
  have hfirst : (fiveReply.reply.stat 0).active = 0 :=
    (congrArg StatusreplyData.active (hstat 0 (by decide) (by decide))).trans (rowRecord_free rfl _)
  refine ⟨hret, ⟨0, by rw [hcount]; decide, .inl hfirst⟩, ?_⟩
  rintro ⟨rows, hrows, -⟩
  obtain ⟨hheld, hnone⟩ := stat_of_ones hbehind
  obtain ⟨minutes, hminutes⟩ :=
    (readable_of_collects hrows).contime rfl 4 (by rw [hcount]; decide) hheld
  exact absurd (hnone.symm.trans hminutes) (by simp)

end XinuConsole.RetryLoop
