import XinuConsole.Reservation

/-!
The search through the servers: `getTCPConnection` on every list of replies.

The rows of a reply that may be asked for are counted before `rand() % free`.
A reply without one, which is what a server sends whose rows are all busy,
makes that a division by zero.
-/

namespace XinuConsole.ServerSearch

open Lib ConnectUtils Consoled MakeConnection Reservation

/-- What `recvfromReply` makes of a datagram that it accepts. -/
def Decoded (reply : Reply) : Prop :=
  ∃ stack d prior, (recvfromReply stack (some d) prior).ret ≠ -1 ∧
    (recvfromReply stack (some d) prior).reply = reply

/-- A row that the pass may ask for: a free one, and in the stealing pass one
that is held for `RESERVETIME` minutes. -/
def Candidate (steal : Bool) (stat : StatusreplyData) : Prop :=
  stat.active = 0 ∨ (steal = true ∧ ∃ minutes, getMinutes stat.contime = some minutes ∧
    reserveTime ≤ minutes)

/-- The reply has such a row. -/
def Offers (steal : Bool) (reply : Reply) : Prop :=
  ∃ j : ℕ, (j : ℤ) < atoi reply.numconnections.val ∧ Candidate steal (reply.stat j)

/-- Every row that is announced is in the reply, and a stealing pass can read the
times of those that are held. -/
structure Readable (steal : Bool) (reply : Reply) : Prop where
  count : atoi reply.numconnections.val ≤ maxConnections
  contime : steal = true → ∀ j : ℕ, (j : ℤ) < atoi reply.numconnections.val →
    (reply.stat j).active ≠ 0 → ∃ minutes, getMinutes (reply.stat j).contime = some minutes

/-- A row for which requests are sent: the stealing pass leaves the free
candidates alone. -/
def Asks (steal : Bool) (stat : StatusreplyData) : Prop :=
  Candidate steal stat ∧ (steal = true ↔ stat.active ≠ 0)

/-- The names of a row fit the caller's buffers. -/
def Fits (b : Buffers) (stat : StatusreplyData) : Prop :=
  (b.connection.isSome → (cstr stat.conname).length < maxConnectionName) ∧
    (b.cls.isSome → (cstr stat.conclass).length < maxClassName)

/-- A reply that offers a row to the pass, with rows that can be read and asked for. -/
structure Searchable (steal : Bool) (b : Buffers) (reply : Reply) : Prop
    extends Readable steal reply where
  offers : Offers steal reply
  fits : ∀ j : ℕ, (j : ℤ) < atoi reply.numconnections.val → Asks steal (reply.stat j) →
    Fits b (reply.stat j)

/-- No call is undefined. -/
def NoFault (_ : History) (op : Op) : Prop := op ≠ .undefined

/-- How many replies have been examined: `rand` is called once for each. -/
def examined (h : History) : ℕ := h.countP fun c => decide (c.op = .rand)

/-- A pass goes through without a fault whatever its calls answer, and fails
only after every reply has been examined. -/
def Passes (steal : Bool) (replies : List Reply) (b : Buffers) : Prop :=
  Prog.wp NoFault (getTCPConnection steal replies b)
    (fun h r => r.1 < 0 → examined h = replies.length) []

/-- The end of `makeConnection` once the replies are there: the pass for free
rows and the stealing pass. -/
def search (replies : List Reply) (b : Buffers) : Client (ℤ × Buffers) := do
  let (fd, b) ← getTCPConnection false replies b
  if 0 ≤ fd then pure (fd, b)
  else getTCPConnection true replies b

theorem acquire_eq (b : Buffers) :
    acquire b = obtainStatus (b.connection.map Subtype.val) (b.cls.map Subtype.val)
      (b.host.map Subtype.val) >>= fun replies =>
        if totalAnswers replies ≤ 0 then pure (-1, b) else search replies b :=
  rfl

/-- Both passes go through: the second one is done whenever the first fails. -/
def SearchesAll (replies : List Reply) (b : Buffers) : Prop :=
  Prog.wp NoFault (search replies b)
    (fun h r => r.1 < 0 → examined h = 2 * replies.length) []

/-! ### The rows that are counted -/

theorem candidate_eq {steal : Bool} {stat : StatusreplyData}
    (hread : steal = true → stat.active ≠ 0 → ∃ minutes, getMinutes stat.contime = some minutes) :
    ∃ found, candidate steal stat = pure found ∧ (found = true ↔ Candidate steal stat) := by
  unfold candidate
  split
  · next hsteal =>
      obtain ⟨minutes, hminutes⟩ := hread hsteal.1 hsteal.2
      refine ⟨decide (minutes ≥ reserveTime), by rw [hminutes], ?_⟩
      simp [Candidate, hsteal.1, hsteal.2, hminutes]
  · next hsteal =>
      refine ⟨decide (stat.active = 0), rfl, ?_⟩
      rw [decide_eq_true_eq, Candidate]
      exact ⟨.inl, fun h => by_contra fun h0 => hsteal ⟨(h.resolve_left h0).1, h0⟩⟩

/-- The array `indeces` holds the candidates in their order, and no call is made
for it. -/
theorem indeces_eq (steal : Bool) (reply : Reply) (k j : ℕ) (hbound : j + k ≤ maxConnections)
    (hread : ∀ i, j ≤ i → i < j + k → steal = true → (reply.stat i).active ≠ 0 →
      ∃ minutes, getMinutes (reply.stat i).contime = some minutes) :
    ∃ free, indeces steal reply k j = pure free ∧ free.Pairwise (· < ·) ∧
      ∀ i, i ∈ free ↔ j ≤ i ∧ i < j + k ∧ Candidate steal (reply.stat i) := by
  induction k generalizing j with
  | zero => exact ⟨[], rfl, .nil, fun i => by simp; omega⟩
  | succ k ih =>
      obtain ⟨found, hfound, hcand⟩ := @candidate_eq steal _ (hread j le_rfl (by omega))
      obtain ⟨rest, hrest, hsorted, hmem⟩ := ih (j + 1) (by omega)
        fun i hi hlt => hread i (by omega) (by omega)
      refine ⟨if found then j :: rest else rest, ?_, ?_, fun i => ?_⟩
      · rw [indeces, if_neg (by omega), hfound]
        show indeces steal reply k (j + 1) >>= _ = _
        rw [hrest]
        rfl
      · cases found with
        | true => exact hsorted.cons fun i hi => ((hmem i).mp hi).1
        | false => exact hsorted
      · have hi : i ∈ rest ↔ j + 1 ≤ i ∧ i < j + (k + 1) ∧ Candidate steal (reply.stat i) := by
          rw [hmem, show j + 1 + k = j + (k + 1) by omega]
        cases found with
        | true =>
            rw [if_pos rfl, List.mem_cons, hi]
            constructor
            · rintro (rfl | ⟨h₁, h₂, h₃⟩)
              · exact ⟨le_rfl, by omega, hcand.mp rfl⟩
              · exact ⟨by omega, h₂, h₃⟩
            · rintro ⟨h₁, h₂, h₃⟩
              rcases h₁.eq_or_lt with rfl | hlt
              · exact .inl rfl
              · exact .inr ⟨hlt, h₂, h₃⟩
        | false =>
            rw [if_neg (by simp), hi]
            constructor
            · rintro ⟨h₁, h₂, h₃⟩
              exact ⟨by omega, h₂, h₃⟩
            · rintro ⟨h₁, h₂, h₃⟩
              rcases h₁.eq_or_lt with rfl | hlt
              · exact absurd (hcand.mpr h₃) (by simp)
              · exact ⟨hlt, h₂, h₃⟩

/-- The candidates of a reply. -/
theorem Readable.indeces_eq {steal : Bool} {reply : Reply} (hr : Readable steal reply) :
    ∃ free, indeces steal reply (atoi reply.numconnections.val).toNat 0 = pure free ∧
      free.Pairwise (· < ·) ∧
      ∀ j, j ∈ free ↔ (j : ℤ) < atoi reply.numconnections.val ∧ Candidate steal (reply.stat j) := by
  have hcount := hr.count
  obtain ⟨free, heq, hsorted, hmem⟩ := ServerSearch.indeces_eq steal reply
    (atoi reply.numconnections.val).toNat 0 (by omega) fun i _ hi hsteal =>
      hr.contime hsteal i (by omega)
  refine ⟨free, heq, hsorted, fun j => (hmem j).trans ?_⟩
  constructor
  · rintro ⟨-, hlt, hc⟩
    exact ⟨by omega, hc⟩
  · rintro ⟨hlt, hc⟩
    exact ⟨Nat.zero_le _, by omega, hc⟩

/-- Without a fault, the rows and their times could be read. -/
theorem indeces_read {steal : Bool} {reply : Reply} {k j : ℕ} {h : History}
    {post : History → List ℕ → Prop} (hsafe : Prog.wp NoFault (indeces steal reply k j) post h)
    (i : ℕ) (hi : j ≤ i) (hlt : i < j + k) :
    i < maxConnections ∧ (steal = true → (reply.stat i).active ≠ 0 →
      ∃ minutes, getMinutes (reply.stat i).contime = some minutes) := by
  induction k generalizing j h post with
  | zero => exact absurd hlt (by omega)
  | succ k ih =>
      rw [indeces] at hsafe
      split at hsafe
      · exact absurd rfl ((wp_undefined _).mp hsafe)
      · next hinside =>
        rw [Prog.wp_bind] at hsafe
        have hread : steal = true → (reply.stat j).active ≠ 0 →
            ∃ minutes, getMinutes (reply.stat j).contime = some minutes := by
          intro hsteal hheld
          rw [candidate, if_pos ⟨hsteal, hheld⟩] at hsafe
          cases hminutes : getMinutes (reply.stat j).contime with
          | some minutes => exact ⟨minutes, rfl⟩
          | none =>
              rw [hminutes] at hsafe
              exact absurd rfl ((wp_undefined _).mp hsafe)
        obtain ⟨found, hfound, -⟩ := candidate_eq hread
        rw [hfound, Prog.wp_pure, Prog.wp_bind] at hsafe
        rcases hi.eq_or_lt with rfl | hbehind
        · exact ⟨Nat.lt_of_not_le hinside, hread⟩
        · exact ih hsafe hbehind (by omega)

theorem readable_of_noFault {steal : Bool} {reply : Reply} {h : History}
    {post : History → List ℕ → Prop}
    (hsafe : Prog.wp NoFault (indeces steal reply (atoi reply.numconnections.val).toNat 0) post h) :
    Readable steal reply := by
  constructor
  · by_contra hmany
    simp only [maxConnections, Nat.cast_ofNat, not_le] at hmany
    have := (indeces_read hsafe maxConnections (Nat.zero_le _) (by simp only [maxConnections]; omega)).1
    exact absurd this (lt_irrefl _)
  · intro hsteal j hj
    exact (indeces_read hsafe j (Nat.zero_le _) (by omega)).2 hsteal

/-! ### Trying the rows -/

theorem examined_append (h h' : History) : examined (h ++ h') = examined h + examined h' :=
  List.countP_append ..

theorem examined_snoc (h : History) {call : Answered Op Res} (hop : call.op ≠ .rand) :
    examined (h ++ [call]) = examined h := by
  rw [examined_append]
  simp [examined, hop]

/-- A copy into a buffer that is long enough. -/
theorem copyOut_noFault {n : ℕ} {dst : Option (CharArray n)} {src : List Byte}
    (hfit : dst.isSome → (cstr src).length < n) {post : History → Option (CharArray n) → Prop}
    {h : History} (hpost : ∀ dst', dst'.isSome = dst.isSome → post h dst') :
    Prog.wp NoFault (copyOut dst src) post h := by
  cases dst with
  | none => exact hpost none rfl
  | some a =>
      rw [copyOut, if_pos (hfit rfl)]
      exact hpost _ rfl

theorem fits_of_copyOut {n : ℕ} {dst : Option (CharArray n)} {src : List Byte}
    {post : History → Option (CharArray n) → Prop} {h : History}
    (hsafe : Prog.wp NoFault (copyOut dst src) post h) :
    (dst.isSome → (cstr src).length < n) ∧ ∃ dst', post h dst' := by
  cases dst with
  | none => exact ⟨fun hsome => absurd hsome (by simp), none, hsafe⟩
  | some a =>
      rw [copyOut] at hsafe
      split at hsafe
      · next hfit => exact ⟨fun _ => hfit, _, hsafe⟩
      · exact absurd rfl ((wp_undefined _).mp hsafe)

/-- A null pointer stays one. -/
def Kept (b b' : Buffers) : Prop :=
  b'.connection.isSome = b.connection.isSome ∧ b'.cls.isSome = b.cls.isSome

theorem Kept.refl (b : Buffers) : Kept b b := ⟨rfl, rfl⟩

theorem Kept.trans {b b' b'' : Buffers} (h : Kept b b') (h' : Kept b' b'') : Kept b b'' :=
  ⟨h'.1.trans h.1, h'.2.trans h.2⟩

theorem Kept.fits {b b' : Buffers} (h : Kept b b') {stat : StatusreplyData} (hf : Fits b stat) :
    Fits b' stat := by
  unfold Fits
  rwa [h.1, h.2]

theorem Kept.searchable {b b' : Buffers} (h : Kept b b') {steal : Bool} {reply : Reply}
    (hs : Searchable steal b reply) : Searchable steal b' reply :=
  { hs with fits := fun j hj hasks => h.fits (hs.fits j hj hasks) }

section Row

variable {stat : StatusreplyData} (b : Buffers) (host : List Byte) (steal : Bool) (h : History)

/-- Asking for a row calls no `rand`. -/
def Asked (h' : History) (r : ℤ × Option (CharArray maxConnectionName) ×
    Option (CharArray maxClassName)) : Prop :=
  examined h' = examined h ∧ Kept b ⟨r.2.1, r.2.2, b.host⟩

theorem makeRow_noFault (hfits : Fits b stat) :
    Prog.wp NoFault (makeRow b.connection b.cls host stat) (Asked b h) h := by
  simp only [makeRow, Prog.wp_bind, wp_reqGeneric]
  refine ⟨by simp [NoFault], fun r => ?_⟩
  cases r with
  | none => exact ⟨examined_snoc h (by simp), .refl b⟩
  | some granted =>
      simp only [Prog.wp_bind]
      refine copyOut_noFault hfits.1 fun connection' hconnection => ?_
      refine copyOut_noFault hfits.2 fun cls' hcls => ?_
      simp only [wp_connectTCP, Prog.wp_pure]
      refine ⟨by simp [NoFault], fun fd => ⟨?_, hconnection, hcls⟩⟩
      exact (examined_snoc _ (by simp)).trans (examined_snoc h (by simp))

theorem breakRow_noFault (hread : ∃ minutes, getMinutes stat.contime = some minutes) :
    Prog.wp NoFault (breakRow host stat)
      (fun h' go => examined h' = examined h ∧ (go = true → ∃ minutes,
        getMinutes stat.contime = some minutes ∧ reserveTime ≤ minutes)) h := by
  obtain ⟨minutes, hminutes⟩ := hread
  simp only [breakRow, hminutes]
  split
  · exact ⟨rfl, fun hgo => absurd hgo (by simp)⟩
  · next hlong =>
      simp only [Prog.wp_bind, wp_reqGeneric]
      refine ⟨by simp [NoFault], fun r => ?_⟩
      cases r with
      | none => exact ⟨examined_snoc h (by simp), fun hgo => absurd hgo (by simp)⟩
      | some granted =>
          simp only [Prog.wp_bind, wp_usleep, Prog.wp_pure]
          refine ⟨by simp [NoFault], fun _ => ⟨?_, fun _ => ⟨minutes, rfl, le_of_not_gt hlong⟩⟩⟩
          exact (examined_snoc _ (by simp)).trans (examined_snoc h (by simp))

theorem reqTCPConnection_noFault (hfits : Asks steal stat → Fits b stat)
    (hread : steal = true → stat.active ≠ 0 → ∃ minutes, getMinutes stat.contime = some minutes) :
    Prog.wp NoFault (reqTCPConnection b.connection b.cls host steal stat) (Asked b h) h := by
  unfold reqTCPConnection
  split
  · exact ⟨rfl, .refl b⟩
  · next htest =>
      split
      · next hsteal =>
          rw [Prog.wp_bind]
          have hactive : stat.active ≠ 0 := fun h0 => htest (.inr ⟨hsteal, h0⟩)
          refine Prog.wp_mono ?_ (breakRow_noFault host h (hread hsteal hactive))
          rintro h' go - ⟨hasked, hlong⟩
          split
          · next hgo =>
              have hasks : Asks steal stat :=
                ⟨.inr ⟨hsteal, hlong hgo⟩, iff_of_true hsteal hactive⟩
              exact Prog.wp_mono (fun _ _ _ hmade => ⟨hmade.1.trans hasked, hmade.2⟩)
                (makeRow_noFault b host h' (hfits hasks))
          · exact ⟨hasked, .refl b⟩
      · next hsteal =>
          have hfree : stat.active = 0 := by
            by_contra hheld
            exact htest (.inl ⟨by simpa using hsteal, hheld⟩)
          have hasks : Asks steal stat := ⟨.inl hfree, iff_of_false hsteal (not_not.mpr hfree)⟩
          exact makeRow_noFault b host h (hfits hasks)

/-- A row that is asked for may be granted, and then its names are copied. -/
theorem fits_of_makeRow {connection : Option (CharArray maxConnectionName)}
    {cls : Option (CharArray maxClassName)} {host : List Byte} {h : History}
    {post : History → ℤ × Option (CharArray maxConnectionName) × Option (CharArray maxClassName) →
      Prop}
    (hsafe : Prog.wp NoFault (makeRow connection cls host stat) post h) :
    Fits ⟨connection, cls, none⟩ stat := by
  simp only [makeRow, Prog.wp_bind, wp_reqGeneric] at hsafe
  have hgranted := hsafe.2 (some zeroReply)
  simp only [Prog.wp_bind] at hgranted
  obtain ⟨hconnection, _, hrest⟩ := fits_of_copyOut hgranted
  exact ⟨hconnection, (fits_of_copyOut hrest).1⟩

theorem fits_of_reqTCPConnection {host : List Byte} {steal : Bool} {h : History}
    {post : History → ℤ × Option (CharArray maxConnectionName) × Option (CharArray maxClassName) →
      Prop}
    (hsafe : Prog.wp NoFault (reqTCPConnection b.connection b.cls host steal stat) post h)
    (hasks : Asks steal stat) : Fits b stat := by
  obtain ⟨hcand, hsame⟩ := hasks
  have htest : ¬(steal = false ∧ stat.active ≠ 0 ∨ steal = true ∧ stat.active = 0) := by
    rintro (⟨hno, hheld⟩ | ⟨hsteal, hfree⟩)
    · exact absurd (hsame.mpr hheld) (by simp [hno])
    · exact hsame.mp hsteal hfree
  rw [reqTCPConnection, if_neg htest] at hsafe
  split at hsafe
  · next hsteal =>
      obtain ⟨minutes, hminutes, hlong⟩ := (hcand.resolve_left (hsame.mp hsteal)).2
      simp only [breakRow, hminutes, if_neg (not_lt.mpr hlong), Prog.wp_bind, wp_reqGeneric] at hsafe
      have hbroken := hsafe.2 (some zeroReply)
      simp only [Prog.wp_bind, wp_usleep, Prog.wp_pure, if_true] at hbroken
      exact fits_of_makeRow (hbroken.2 ())
  · exact fits_of_makeRow hsafe

end Row

/-- The rows of the array are those the reply announces as candidates. -/
theorem tryRows_noFault {steal : Bool} {reply : Reply} {b : Buffers} (hs : Searchable steal b reply)
    (hhost : (cstr reply.hostname.val).length < maxHostName) {free : List ℕ}
    (hfree : ∀ j ∈ free, (j : ℤ) < atoi reply.numconnections.val) (k : ℕ) {randgrab : ℕ}
    (hgrab : randgrab < free.length) (h : History) :
    Prog.wp NoFault (tryRows steal reply free k randgrab b)
      (fun h' r => examined h' = examined h ∧ Kept b r.2) h := by
  induction k generalizing randgrab b h with
  | zero => exact ⟨rfl, .refl b⟩
  | succ k ih =>
      have hj : free.getD randgrab 0 ∈ free := by
        rw [List.getD_eq_getElem _ _ hgrab]
        exact List.getElem_mem hgrab
      have hrow := hfree _ hj
      rw [tryRows, Prog.wp_bind]
      refine Prog.wp_mono ?_ (reqTCPConnection_noFault b _ steal h (hs.fits _ hrow)
        fun hsteal => hs.contime hsteal _ hrow)
      rintro h' ⟨fd, connection, cls⟩ - ⟨hasked, hkept⟩
      dsimp only at hkept ⊢
      split
      · rw [Prog.wp_bind]
        refine copyOut_noFault (fun _ => ?_) fun _ _ => ⟨hasked, hkept⟩
        rwa [cstr_cstr]
      · exact Prog.wp_mono (fun _ _ _ htried => ⟨htried.1.trans hasked, hkept.trans htried.2⟩)
          (ih (hkept.searchable hs) (Nat.mod_lt _ (by omega)) h')

/-! ### Passes -/

theorem getTCPConnection_cons {steal : Bool} {reply : Reply} {free : List ℕ}
    (hindeces : indeces steal reply (atoi reply.numconnections.val).toNat 0 = pure free)
    (replies : List Reply) (b : Buffers) :
    getTCPConnection steal (reply :: replies) b = rand >>= fun random =>
      if free = [] then undefined
      else tryRows steal reply free free.length (random % free.length) b >>= fun r =>
        if 0 ≤ r.1 then pure (r.1, r.2) else getTCPConnection steal replies r.2 := by
  rw [getTCPConnection, hindeces]
  rfl

/-- The array of a reply that offers a row. -/
theorem Searchable.array {steal : Bool} {b : Buffers} {reply : Reply}
    (hs : Searchable steal b reply) :
    ∃ free, indeces steal reply (atoi reply.numconnections.val).toNat 0 = pure free ∧
      free ≠ [] ∧ ∀ j ∈ free, (j : ℤ) < atoi reply.numconnections.val := by
  obtain ⟨free, hindeces, -, hmem⟩ := hs.toReadable.indeces_eq
  obtain ⟨j, hj⟩ := hs.offers
  exact ⟨free, hindeces, List.ne_nil_of_mem ((hmem j).mpr hj), fun i hi => ((hmem i).mp hi).1⟩

/-- Replies that can all be searched are examined one after the other. -/
theorem getTCPConnection_noFault (steal : Bool) {replies : List Reply}
    (hd : ∀ reply ∈ replies, (cstr reply.hostname.val).length < maxHostName) {b : Buffers}
    (hs : ∀ reply ∈ replies, Searchable steal b reply) (h : History) :
    Prog.wp NoFault (getTCPConnection steal replies b)
      (fun h' r => Kept b r.2 ∧ (r.1 < 0 → examined h' = examined h + replies.length)) h := by
  induction replies generalizing b h with
  | nil => exact ⟨.refl b, fun _ => rfl⟩
  | cons reply replies ih =>
      have hreply := hs reply List.mem_cons_self
      obtain ⟨free, hindeces, hsome, hfree⟩ := hreply.array
      rw [getTCPConnection_cons hindeces, Prog.wp_bind, wp_rand]
      refine ⟨by simp [NoFault], fun random => ?_⟩
      rw [if_neg hsome, Prog.wp_bind]
      refine Prog.wp_mono ?_ (tryRows_noFault hreply (hd reply List.mem_cons_self) hfree _
        (Nat.mod_lt random (List.length_pos_of_ne_nil hsome)) _)
      rintro h' ⟨fd, b'⟩ - ⟨hasked, hkept⟩
      dsimp only at hkept ⊢
      have hone : examined h' = examined h + 1 := by
        rw [hasked, examined_append]
        rfl
      split
      · next hfd => exact ⟨hkept, fun hneg => absurd hfd (by simpa using hneg)⟩
      · refine Prog.wp_mono (fun h'' r _ hrest => ⟨hkept.trans hrest.1, fun hneg => ?_⟩)
          (ih (fun reply hr => hd reply (List.mem_cons_of_mem _ hr))
            (fun reply hr => hkept.searchable (hs reply (List.mem_cons_of_mem _ hr))) h')
        rw [hrest.2 hneg, hone, List.length_cons]
        omega

/-! ### A run in which every request is refused -/

theorem makeRow_refused (connection : Option (CharArray maxConnectionName))
    (cls : Option (CharArray maxClassName)) (host : List Byte) (stat : StatusreplyData) :
    ∃ h, Prog.Runs (makeRow connection cls host stat) h (-1, connection, cls) :=
  ⟨_, runs_call (Op.reqGeneric ..) none (.ret _)⟩

theorem reqTCPConnection_refused (connection : Option (CharArray maxConnectionName))
    (cls : Option (CharArray maxClassName)) (host : List Byte) {steal : Bool} {stat : StatusreplyData}
    (hread : steal = true → stat.active ≠ 0 → ∃ minutes, getMinutes stat.contime = some minutes) :
    ∃ h, Prog.Runs (reqTCPConnection connection cls host steal stat) h (-1, connection, cls) := by
  unfold reqTCPConnection
  split
  · exact ⟨_, .ret _⟩
  · next htest =>
      split
      · next hsteal =>
          obtain ⟨minutes, hminutes⟩ := hread hsteal fun h0 => htest (.inr ⟨hsteal, h0⟩)
          have hbreak : ∃ h, Prog.Runs (breakRow host stat) h false := by
            simp only [breakRow, hminutes]
            split
            · exact ⟨_, .ret _⟩
            · exact ⟨_, runs_call (Op.reqGeneric ..) none (.ret _)⟩
          obtain ⟨h, hrun⟩ := hbreak
          exact ⟨_, hrun.bind (.ret _)⟩
      · exact makeRow_refused connection cls host stat

section Refused

variable {steal : Bool} {reply : Reply} (hr : Readable steal reply) {free : List ℕ}
  (hfree : ∀ j ∈ free, (j : ℤ) < atoi reply.numconnections.val)

include hr hfree

theorem row_refused {randgrab : ℕ} (hgrab : randgrab < free.length) (b : Buffers) :
    ∃ h, Prog.Runs (reqTCPConnection b.connection b.cls (cstr reply.hostname.val) steal
      (reply.stat (free.getD randgrab 0))) h (-1, b.connection, b.cls) := by
  have hj : free.getD randgrab 0 ∈ free := by
    rw [List.getD_eq_getElem _ _ hgrab]
    exact List.getElem_mem hgrab
  exact reqTCPConnection_refused _ _ _ fun hsteal => hr.contime hsteal _ (hfree _ hj)

theorem tryRows_refused (k : ℕ) {randgrab : ℕ} (hgrab : randgrab < free.length) (b : Buffers) :
    ∃ h, Prog.Runs (tryRows steal reply free k randgrab b) h (-1, b) := by
  induction k generalizing randgrab with
  | zero => exact ⟨_, .ret _⟩
  | succ k ih =>
      obtain ⟨h, hrun⟩ := row_refused hr hfree hgrab b
      obtain ⟨h', hrest⟩ := ih (Nat.mod_lt (randgrab + 1) (by omega))
      rw [tryRows]
      refine ⟨h ++ h', hrun.bind ?_⟩
      dsimp only
      rw [if_neg (by norm_num)]
      exact hrest

/-- Each row of the array is asked for where those before it are refused, so it
must fit. -/
theorem fits_of_tryRows {k randgrab : ℕ} (hgrab : randgrab < free.length) {b : Buffers}
    {post : History → ℤ × Buffers → Prop} {h : History}
    (hsafe : Prog.wp NoFault (tryRows steal reply free k randgrab b) post h) {i : ℕ} (hi : i < k)
    (hasks : Asks steal (reply.stat (free.getD ((randgrab + i) % free.length) 0))) :
    Fits b (reply.stat (free.getD ((randgrab + i) % free.length) 0)) := by
  induction k generalizing randgrab h i with
  | zero => exact absurd hi (Nat.not_lt_zero i)
  | succ k ih =>
      rw [tryRows, Prog.wp_bind] at hsafe
      cases i with
      | zero =>
          rw [Nat.add_zero, Nat.mod_eq_of_lt hgrab] at hasks ⊢
          exact fits_of_reqTCPConnection b hsafe hasks
      | succ i =>
          obtain ⟨h', hrun⟩ := row_refused hr hfree hgrab b
          have hrest := hrun.post hsafe
          dsimp only at hrest
          rw [if_neg (by norm_num)] at hrest
          have hnext : (randgrab + (i + 1)) % free.length =
              ((randgrab + 1) % free.length + i) % free.length := by
            rw [Nat.mod_add_mod, Nat.add_assoc, Nat.add_comm 1]
          rw [hnext] at hasks ⊢
          exact ih (Nat.mod_lt _ (by omega)) hrest (by omega) hasks

end Refused

theorem getTCPConnection_refused (steal : Bool) {replies : List Reply} {b : Buffers}
    (hs : ∀ reply ∈ replies, Searchable steal b reply) :
    ∃ h, Prog.Runs (getTCPConnection steal replies b) h (-1, b) := by
  induction replies with
  | nil => exact ⟨_, .ret _⟩
  | cons reply replies ih =>
      have hreply := hs reply List.mem_cons_self
      obtain ⟨free, hindeces, hsome, hfree⟩ := hreply.array
      obtain ⟨h, hrun⟩ := tryRows_refused hreply.toReadable hfree free.length
        (Nat.mod_lt 0 (List.length_pos_of_ne_nil hsome)) b
      obtain ⟨h', hrest⟩ := ih fun r hr => hs r (List.mem_cons_of_mem _ hr)
      rw [getTCPConnection_cons hindeces]
      refine ⟨⟨.rand, (0 : ℕ)⟩ :: (h ++ h'), runs_call Op.rand (0 : ℕ) ?_⟩
      rw [if_neg hsome]
      refine hrun.bind ?_
      dsimp only
      rw [if_neg (by norm_num)]
      exact hrest

/-- Where a pass has no fault at its first reply, that one can be searched, and
the others are reached with the buffers as they were. -/
theorem searchable_head {steal : Bool} {reply : Reply} {replies : List Reply} {b : Buffers}
    {post : History → ℤ × Buffers → Prop} {h : History}
    (hsafe : Prog.wp NoFault (getTCPConnection steal (reply :: replies) b) post h) :
    Searchable steal b reply ∧
      ∃ h', Prog.wp NoFault (getTCPConnection steal replies b) post h' := by
  have hr : Readable steal reply := by
    rw [getTCPConnection, Prog.wp_bind] at hsafe
    exact readable_of_noFault hsafe
  obtain ⟨free, hindeces, -, hmem⟩ := hr.indeces_eq
  rw [getTCPConnection_cons hindeces, Prog.wp_bind, wp_rand] at hsafe
  have hdrawn := hsafe.2 0
  have hsome : free ≠ [] := by
    intro hnone
    rw [if_pos hnone, wp_undefined] at hdrawn
    exact hdrawn rfl
  have hpos := List.length_pos_of_ne_nil hsome
  rw [if_neg hsome, Prog.wp_bind] at hdrawn
  have hfree : ∀ j ∈ free, (j : ℤ) < atoi reply.numconnections.val := fun j hj => ((hmem j).mp hj).1
  refine ⟨{ hr with offers := ?_, fits := fun j hj hasks => ?_ }, ?_⟩
  · obtain ⟨j, hj⟩ := List.exists_mem_of_ne_nil free hsome
    exact ⟨j, (hmem j).mp hj⟩
  · obtain ⟨i, hi, rfl⟩ := List.getElem_of_mem ((hmem j).mpr ⟨hj, hasks.1⟩)
    have hrow : free.getD ((0 % free.length + i) % free.length) 0 = free[i] := by
      rw [Nat.zero_mod, Nat.zero_add, Nat.mod_eq_of_lt hi, List.getD_eq_getElem _ _ hi]
    have hfits := fits_of_tryRows hr hfree (Nat.mod_lt 0 hpos) hdrawn hi
    rw [hrow] at hfits
    exact hfits hasks
  · obtain ⟨h', hrun⟩ := tryRows_refused hr hfree free.length (Nat.mod_lt 0 hpos) b
    have hrest := hrun.post hdrawn
    dsimp only at hrest
    rw [if_neg (by norm_num)] at hrest
    exact ⟨_, hrest⟩

/-- Where a pass has no fault, all replies can be searched: each is looked at in
the run in which every request is refused. -/
theorem searchable_of_noFault {steal : Bool} {replies : List Reply} {b : Buffers}
    {post : History → ℤ × Buffers → Prop} {h : History}
    (hsafe : Prog.wp NoFault (getTCPConnection steal replies b) post h) :
    ∀ reply ∈ replies, Searchable steal b reply := by
  induction replies generalizing h with
  | nil => simp
  | cons reply replies ih =>
      obtain ⟨hreply, h', hrest⟩ := searchable_head hsafe
      intro reply' hmem
      rcases List.mem_cons.mp hmem with rfl | hmem
      · exact hreply
      · exact ih hrest reply' hmem

section Replies

variable {replies : List Reply} (hd : ∀ reply ∈ replies, Decoded reply) (b : Buffers)

include hd

theorem hostname_fits : ∀ reply ∈ replies, (cstr reply.hostname.val).length < maxHostName := by
  intro reply hmem
  obtain ⟨_, _, _, hret, rfl⟩ := hd reply hmem
  exact recvfromReply_hostname hret

theorem passes_iff (steal : Bool) :
    Passes steal replies b ↔ ∀ reply ∈ replies, Searchable steal b reply := by
  constructor
  · exact searchable_of_noFault
  · intro hs
    have hsafe := getTCPConnection_noFault steal (hostname_fits hd) hs []
    refine Prog.wp_mono (fun _ _ _ hall hneg => ?_) hsafe
    rw [hall.2 hneg]
    exact Nat.zero_add _

theorem searchesAll_iff :
    SearchesAll replies b ↔
      ∀ reply ∈ replies, Searchable false b reply ∧ Searchable true b reply := by
  unfold SearchesAll search
  rw [Prog.wp_bind]
  constructor
  · intro hsafe reply hmem
    have hfirst := searchable_of_noFault hsafe
    obtain ⟨h, hrun⟩ := getTCPConnection_refused false hfirst
    have hsecond := hrun.post hsafe
    dsimp only at hsecond
    rw [if_neg (by norm_num)] at hsecond
    exact ⟨hfirst reply hmem, searchable_of_noFault hsecond reply hmem⟩
  · intro hs
    refine Prog.wp_mono ?_ (getTCPConnection_noFault false (hostname_fits hd)
      (fun reply hr => (hs reply hr).1) [])
    rintro h ⟨fd, b'⟩ - ⟨hkept, hfirst⟩
    dsimp only at hkept hfirst ⊢
    split
    · next hfd => exact fun hneg => absurd hfd (by simpa using hneg)
    · next hfd =>
        refine Prog.wp_mono (fun h' r _ hall hneg => ?_) (getTCPConnection_noFault true
          (hostname_fits hd) (fun reply hr => hkept.searchable (hs reply hr).2) h)
        rw [hall.2 hneg, hfirst (lt_of_not_ge hfd), two_mul]
        simp [examined]

end Replies

/-! ### Replies of a daemon -/

/-- The rows of a reply are those of a table, and their times can be read. -/
structure Legible (reply : Reply) : Prop where
  count : atoi reply.numconnections.val ≤ maxConnections
  conname : ∀ j : ℕ, (j : ℤ) < atoi reply.numconnections.val →
    (cstr (reply.stat j).conname).length < maxConnectionName
  conclass : ∀ j : ℕ, (j : ℤ) < atoi reply.numconnections.val →
    (cstr (reply.stat j).conclass).length < maxClassName
  contime : ∀ j : ℕ, (j : ℤ) < atoi reply.numconnections.val → (reply.stat j).active ≠ 0 →
    ∃ minutes, getMinutes (reply.stat j).contime = some minutes

/-- Such a reply can be searched by every pass that it offers a row. -/
theorem Legible.searchable_iff {reply : Reply} (hl : Legible reply) (steal : Bool) (b : Buffers) :
    Searchable steal b reply ↔ Offers steal reply :=
  ⟨fun hs => hs.offers, fun hoffers =>
    { count := hl.count
      contime := fun _ => hl.contime
      offers := hoffers
      fits := fun j hj _ => ⟨fun _ => hl.conname j hj, fun _ => hl.conclass j hj⟩ }⟩

theorem Offers.steal {reply : Reply} (h : Offers false reply) : Offers true reply := by
  obtain ⟨j, hj, hfree | ⟨hsteal, -⟩⟩ := h
  · exact ⟨j, hj, .inl hfree⟩
  · exact absurd hsteal (by simp)

/-- What the listing of a daemon decodes to can be read, if all of its rows are
decoded. -/
theorem legible_of_decodes {l : Listing} {reply : Reply} (hd : Decodes l reply)
    (hsize : l.config.length ≤ maxConnections)
    (hfew : (matching l.config l.req).length ≤ maxNConnections) : Legible reply := by
  obtain ⟨hcount, hstat⟩ := rows_of_decodes hd hsize
  have hrow : ∀ j : ℕ, (j : ℤ) < atoi reply.numconnections.val →
      ∃ row, reply.stat j = rowRecord l.now row := by
    intro j hj
    have hlt : j < (matching l.config l.req).length := by
      have := hj.trans_eq hcount
      omega
    exact ⟨_, hstat j hlt (hlt.trans_le hfew)⟩
  constructor
  · have hle : (matching l.config l.req).length ≤ maxConnections :=
      (List.length_filter_le _ _).trans hsize
    exact hcount.trans_le (Int.ofNat_le.mpr hle)
  · intro j hj
    obtain ⟨row, hrow⟩ := hrow j hj
    rw [hrow, show (rowRecord l.now row).conname = row.conname from rfl,
      cstr_of_not_mem row.conname_str.1]
    exact row.conname_str.2
  · intro j hj
    obtain ⟨row, hrow⟩ := hrow j hj
    rw [hrow, show (rowRecord l.now row).conclass = row.conclass from rfl,
      cstr_of_not_mem row.conclass_str.1]
    exact row.conclass_str.2
  · intro j hj hactive
    obtain ⟨row, hrow⟩ := hrow j hj
    rw [hrow] at hactive ⊢
    have hheld : row.conpid ≠ badPid := fun hfree => hactive (if_pos hfree)
    rw [show (rowRecord l.now row).contime =
      renderTime (int32 (l.now - row.contime)) from if_neg hheld]
    exact ⟨_, getMinutes_renderTime (isInt_int32 _)⟩

/-- The listing of a short table decodes to a reply with the records of its rows. -/
theorem exists_decoded (config : List Condata) (now : ℤ) (hlen : config.length ≤ maxNConnections)
    (hr : ElapsedInRange config now) :
    ∃ reply, Decoded reply ∧ Legible reply ∧ atoi reply.numconnections.val = config.length ∧
      ∀ j (h : j < config.length), reply.stat j = rowRecord now config[j] := by
  let l : Listing := ⟨zeroReply, CharArray.zero _, config, statusAll, now⟩
  have hall : matching config statusAll = config := by
    refine List.filter_eq_self.mpr fun row _ => ?_
    rfl
  have hsize : config.length ≤ maxConnections := hlen.trans (by decide)
  obtain ⟨reply, hd⟩ := exists_decodes l hsize hr
  obtain ⟨hcount, hstat⟩ := rows_of_decodes hd hsize
  simp only [l, hall] at hcount hstat
  have hdecoded : Decoded reply := by
    obtain ⟨stack, prior, hret, hreply⟩ := hd
    exact ⟨stack, l.dgram, prior, hret, hreply⟩
  refine ⟨reply, hdecoded, legible_of_decodes hd hsize ?_, hcount, fun j hj => ?_⟩
  · rw [hall]
    exact hlen
  · exact hstat j hj (hj.trans_le hlen)

/-- **The search through the servers** goes through every list of decoded replies
in either pass, whatever `rand` and the servers answer, exactly where every
reply offers a row to that pass, its rows can be read and the names of those
that are asked for fit the buffers; and both passes are made, the stealing pass
whenever the first fails, exactly where that holds for both. -/
theorem getTCPConnection_passes_iff {replies : List Reply} (hd : ∀ reply ∈ replies, Decoded reply)
    (b : Buffers) :
    (∀ steal, Passes steal replies b ↔ ∀ reply ∈ replies, Searchable steal b reply) ∧
      (SearchesAll replies b ↔
        ∀ reply ∈ replies, Searchable false b reply ∧ Searchable true b reply) :=
  ⟨fun steal => passes_iff hd b steal, searchesAll_iff hd b⟩

theorem elapsedInRange_argo (now : ℤ) : ElapsedInRange [argo] now := by
  intro row hrow hheld
  obtain rfl := List.mem_singleton.mp hrow
  exact absurd rfl hheld

/-- The buffers of a caller that has no names. -/
def emptyBuffers : Buffers :=
  ⟨some (CharArray.zero _), some (CharArray.zero _), some (CharArray.zero _)⟩

/-- A server with one free row. -/
theorem passes_argo :
    ∃ reply, Passes false [reply] emptyBuffers ∧ SearchesAll [reply] emptyBuffers := by
  obtain ⟨reply, hd, hl, hcount, hstat⟩ :=
    exists_decoded [argo] 0 (by decide) (elapsedInRange_argo 0)
  have hoffers : Offers false reply :=
    ⟨0, by rw [hcount]; decide, .inl (congrArg StatusreplyData.active (hstat 0 (by decide)))⟩
  have hdecoded : ∀ r ∈ [reply], Decoded r := by simpa using hd
  have hpass := getTCPConnection_passes_iff hdecoded emptyBuffers
  refine ⟨reply, (hpass.1 false).mpr ?_, hpass.2.mpr ?_⟩ <;>
    simp only [List.mem_singleton, forall_eq, hl.searchable_iff]
  · exact hoffers
  · exact ⟨hoffers, hoffers.steal⟩

/-- A row that is held for a hundred seconds. -/
def heldArgo : Condata := lockRow 7 0 (text "ann") argo

/-- The first server's only row is busy, the second has a free row; the search
divides by zero at the first, in either pass. -/
theorem busy_server_faults :
    ∃ busy free, Decoded busy ∧ Legible busy ∧ Decoded free ∧ Legible free ∧ Offers false free ∧
      (∀ steal, ¬Passes steal [busy, free] emptyBuffers) ∧
        ¬SearchesAll [busy, free] emptyBuffers := by
  have hrange : ElapsedInRange [heldArgo] 100 := by
    intro row hrow _
    obtain rfl := List.mem_singleton.mp hrow
    decide
  obtain ⟨busy, hbusy, hlb, hcount, hstat⟩ := exists_decoded [heldArgo] 100 (by decide) hrange
  obtain ⟨free, hfree, hlf, hcount', hstat'⟩ := exists_decoded [argo] 100 (by decide)
    (elapsedInRange_argo 100)
  have hd : ∀ r ∈ [busy, free], Decoded r := by
    simp only [List.mem_cons, List.not_mem_nil, or_false, forall_eq_or_imp, forall_eq]
    exact ⟨hbusy, hfree⟩
  have hnone : ∀ steal, ¬Offers steal busy := by
    rintro steal ⟨j, hj, hcand⟩
    obtain rfl : j = 0 := by
      rw [hcount] at hj
      simpa using hj
    rw [hstat 0 (by decide)] at hcand
    rcases hcand with h0 | ⟨-, minutes, hminutes, hlong⟩
    · exact absurd h0 (by decide)
    · have hread : getMinutes (rowRecord 100 heldArgo).contime = some 1 := by decide +kernel
      have hsame := hread.symm.trans hminutes
      obtain rfl := Option.some.inj hsame
      exact absurd hlong (by decide)
  refine ⟨busy, free, hbusy, hlb, hfree, hlf, ?_, fun steal h => ?_, fun h => ?_⟩
  · exact ⟨0, by rw [hcount']; decide, .inl (congrArg StatusreplyData.active (hstat' 0 (by decide)))⟩
  · exact hnone steal ((passes_iff hd emptyBuffers steal).mp h busy List.mem_cons_self).offers
  · exact hnone false ((searchesAll_iff hd emptyBuffers).mp h busy List.mem_cons_self).1.offers

end XinuConsole.ServerSearch
